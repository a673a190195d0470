import FilterLang.ParseError
import FilterLang.Text.Digits
import FilterLang.Token.Automaton

/-! Splitting a text into tokens. At each place the longest text that matches a pattern is taken,
its value is read, and the scan goes on behind it. A value that does not exist, such as an integer
beyond 64 bits, makes the whole match invalid; where nothing matches, the text is invalid as far
as some pattern could go on, and for one character at least. -/

namespace FilterLang.Token

/-- The integer a numeral denotes, if it fits in 64 bits. -/
def integer? (cs : List Char) : Option Int64 := Text.Digits.fit? (Text.Digits.signedValue cs)

/-- The parts of a real numeral: whether it is negative, its digits as one number, and the power
of ten they are scaled by. -/
def realParts (cs : List Char) : Bool × Nat × Int :=
  let (negative, cs) := Text.Digits.splitSign cs
  let whole := cs.takeWhile Char.isDigit
  let rest := cs.dropWhile Char.isDigit
  let (fraction, rest) := match rest with
    | '.' :: rest => (rest.takeWhile Char.isDigit, rest.dropWhile Char.isDigit)
    | rest => ([], rest)
  (negative, Text.Digits.value (whole ++ fraction),
    Text.Digits.signedValue (rest.drop 1) - (fraction.length : Int))

/-- The number nearest to what a real numeral denotes, unless it is infinite. -/
def real? (cs : List Char) : Option Binary64 :=
  let (negative, digits, exponent) := realParts cs
  (Magnitude.ofDecimal? digits exponent).map (.finite negative)

/-- The token of a word: a keyword, or else a name. -/
def ofWord (word : String) : Token :=
  if word = "true" then .literal (.boolean true)
  else if word = "false" then .literal (.boolean false)
  else match Connective.ofText? word with
    | some c => .connective c
    | none => .name word

/-- The token that a text of a kind is, unless its value does not exist. -/
def Kind.token? : Kind → List Char → Option Token
  | .integer, cs => (integer? cs).map fun n => .literal (.integer n)
  | .real, cs => (real? cs).map fun x => .literal (.real x)
  | .text, cs =>
    (Text.Quoted.decode (cs.drop 1).dropLast).map fun s => .literal (.text (String.ofList s))
  | .word, cs => some (ofWord (String.ofList cs))
  | .sign t, _ => some t

/-- What the automaton finds at the front of a text: the longest match, with its kind and its
number of characters, and how many characters it reads before it stops. -/
structure Munch where
  best : Option (Kind × Nat)
  reach : Nat

/-- Runs the automaton on: `read` counts the characters before, `best` is the longest match so
far. -/
def munchFrom (p : Progress) (read : Nat) (best : Option (Kind × Nat)) : List Char → Munch
  | [] => ⟨best, read⟩
  | c :: cs =>
    match p.step? c with
    | none => ⟨best, read⟩
    | some q =>
      let best := match q.kind? with
        | some k => some (k, read + 1)
        | none => best
      munchFrom q (read + 1) best cs

/-- Runs the automaton on a text. -/
def munch (cs : List Char) : Munch := munchFrom .start 0 none cs

/-- Scans a text on: `found` holds the tokens before, last first, `offset` the place in the
source, and `pass` counts the characters of a token still to be passed. -/
def scanFrom (found : List Placed) (offset : Nat) :
    (pass : Nat) → List Char → Except ParseError (List Placed)
  | _, [] => .ok found.reverse
  | pass + 1, c :: cs => scanFrom found (offset + c.utf8Size) pass cs
  | 0, c :: cs =>
    let m := munch (c :: cs)
    match m.best with
    | none => .error (.invalidToken (String.ofList ((c :: cs).take (max 1 m.reach))) offset)
    | some (kind, n) =>
      let lexeme := (c :: cs).take n
      match kind.token? lexeme with
      | none => .error (.invalidToken (String.ofList lexeme) offset)
      | some t =>
        let found := if t = .blank then found else ⟨t, offset⟩ :: found
        scanFrom found (offset + c.utf8Size) (n - 1) cs

/-- The tokens of a text, or its first fragment that is none. -/
def scan (source : String) : Except ParseError (List Placed) := scanFrom [] 0 0 source.toList

end FilterLang.Token
