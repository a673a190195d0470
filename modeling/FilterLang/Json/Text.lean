import FilterLang.Json.Number
import FilterLang.Text.Hex

/-! Reading JSON text, as serde_json 1.0 reads it with its default features. The grammar is the
strict one, without comments or trailing commas, and nothing but blanks follows the value; control
characters in strings and halves of surrogate pairs are refused, and arrays and objects nest at most
127 deep. Why a text is refused is not told apart. -/

namespace FilterLang.Json

/-- How deep arrays and objects may nest. -/
def maxDepth : Nat := 127

/-- Is the character blank between tokens? -/
def isSpace (c : Char) : Bool := c == ' ' || c == '\t' || c == '\n' || c == '\r'

/-- Skips blanks. -/
def skip (cs : List Char) : List Char := cs.dropWhile isSpace

/-- Reads four hexadecimal digits. -/
def unit? (cs : List Char) : Option Nat :=
  let digits := cs.take 4
  if digits.length < 4 then none else Text.Hex.value? digits

/-- The character that a letter or sign stands for after a backslash. -/
def letterEscape? : Char → Option Char
  | '"' => some '"'
  | '\\' => some '\\'
  | '/' => some '/'
  | 'b' => some '\x08'
  | 'f' => some '\x0c'
  | 'n' => some '\n'
  | 'r' => some '\r'
  | 't' => some '\t'
  | _ => none

/-- The character that the UTF-16 units at the front of a text encode, and how many characters of
the text after the first unit's `u` they take. -/
def units? (cs : List Char) : Option (Char × Nat) :=
  (unit? cs).bind fun high =>
    if 0xd800 ≤ high ∧ high < 0xdc00 then
      match cs.drop 4 with
      | '\\' :: 'u' :: rest =>
        (unit? rest).bind fun low =>
          if 0xdc00 ≤ low ∧ low < 0xe000 then
            (Text.Hex.character? (0x10000 + (high - 0xd800) * 0x400 + (low - 0xdc00))).map (·, 10)
          else none
      | _ => none
    else (Text.Hex.character? high).map (·, 4)

/-- Reads the escape that follows a backslash, with the number of characters it takes. -/
def escape? : List Char → Option (Char × Nat)
  | 'u' :: rest => (units? rest).map fun (c, n) => (c, n + 1)
  | c :: _ => (letterEscape? c).map (·, 1)
  | [] => none

/-- Reads a string on to its closing quote: `seen` holds what is read already, last character
first, and `pass` counts the characters of an escape still to be passed. -/
def stringFrom? (seen : List Char) : (pass : Nat) → List Char → Option (String × List Char)
  | _, [] => none
  | pass + 1, _ :: rest => stringFrom? seen pass rest
  | 0, c :: rest =>
    if c = '"' then some (String.ofList seen.reverse, rest)
    else if c = '\\' then
      match escape? rest with
      | some (e, n) => stringFrom? (e :: seen) n rest
      | none => none
    else if c.toNat < 32 then none
    else stringFrom? (c :: seen) 0 rest

/-- Reads a number. -/
def number? (cs : List Char) : Option (Json × List Char) :=
  (numeral? cs).bind fun (n, rest) => n.value?.map fun v => (.number v, rest)

mutual

/-- Reads a value, after blanks; `room` is how much deeper arrays and objects may nest. -/
def value? : (fuel room : Nat) → List Char → Option (Json × List Char)
  | 0, _, _ => none
  | fuel + 1, room, cs =>
    match skip cs with
    | 'n' :: 'u' :: 'l' :: 'l' :: rest => some (.null, rest)
    | 't' :: 'r' :: 'u' :: 'e' :: rest => some (.boolean true, rest)
    | 'f' :: 'a' :: 'l' :: 's' :: 'e' :: rest => some (.boolean false, rest)
    | '"' :: rest => (stringFrom? [] 0 rest).map fun (s, rest) => (.text s, rest)
    | '[' :: rest =>
      match room with
      | 0 => none
      | room + 1 =>
        match skip rest with
        | ']' :: rest => some (.array [], rest)
        | rest => items? fuel room [] rest
    | '\x7b' :: rest =>
      match room with
      | 0 => none
      | room + 1 =>
        match skip rest with
        | '\x7d' :: rest => some (.object [], rest)
        | rest => members? fuel room [] rest
    | rest => number? rest

/-- Reads the items of an array on to the closing bracket; `done` holds those before, last first. -/
def items? : (fuel room : Nat) → (done : List Json) → List Char → Option (Json × List Char)
  | 0, _, _, _ => none
  | fuel + 1, room, done, cs =>
    match value? fuel room cs with
    | none => none
    | some (v, rest) =>
      match skip rest with
      | ',' :: rest => items? fuel room (v :: done) rest
      | ']' :: rest => some (.array (v :: done).reverse, rest)
      | _ => none

/-- Reads the members of an object on to the closing brace; `done` holds those before, last
first. -/
def members? :
    (fuel room : Nat) → (done : List (String × Json)) → List Char → Option (Json × List Char)
  | 0, _, _, _ => none
  | fuel + 1, room, done, cs =>
    match skip cs with
    | '"' :: rest =>
      match stringFrom? [] 0 rest with
      | none => none
      | some (name, rest) =>
        match skip rest with
        | ':' :: rest =>
          match value? fuel room rest with
          | none => none
          | some (v, rest) =>
            match skip rest with
            | ',' :: rest => members? fuel room ((name, v) :: done) rest
            | '\x7d' :: rest => some (.object ((name, v) :: done).reverse, rest)
            | _ => none
        | _ => none
    | _ => none

end

/-- Reads a whole text as one value with blanks around it. Every call but the first follows a
character that is read, at most two to one, so that the fuel suffices. -/
def read? (text : String) : Option Json :=
  let cs := text.toList
  match value? (2 * cs.length + 2) maxDepth cs with
  | some (v, rest) => if skip rest = [] then some v else none
  | none => none

end FilterLang.Json
