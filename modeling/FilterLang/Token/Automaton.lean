import FilterLang.Token

/-! The token patterns as one automaton, which reads all of them at once. Every state can still
lead to a token, so the automaton stops exactly where no pattern can go on. -/

namespace FilterLang.Token

/-- What kind of token a text can be. -/
inductive Kind where
  | integer
  | real
  | text
  | word
  | sign (token : Token)
  deriving DecidableEq

/-- What has been read of a token. -/
inductive Progress where
  /-- Nothing. -/
  | start
  /-- A minus. -/
  | minus
  /-- The digits of an integer. -/
  | digits
  /-- A decimal point that digits have to follow. -/
  | point
  /-- Digits after the point. -/
  | fraction
  /-- The letter before an exponent. -/
  | mark
  /-- The sign of an exponent. -/
  | markSign
  /-- The digits of an exponent. -/
  | exponent
  /-- An opening quote and what follows it. -/
  | quoted
  /-- A backslash between quotes. -/
  | escape
  /-- A text and its closing quote. -/
  | closed
  /-- A word. -/
  | word
  /-- An exclamation mark. -/
  | bang
  /-- A token of signs alone. -/
  | sign (token : Token)
  deriving DecidableEq

/-- Does the character separate tokens? -/
def isSpace (c : Char) : Bool := c == ' ' || c == '\t' || c == '\r' || c == '\n' || c == '\x0c'

/-- Can a word begin with the character? -/
def beginsWord (c : Char) : Bool := c.isAlpha || c == '_'

/-- Can a word go on with the character? -/
def continuesWord (c : Char) : Bool := c.isAlphanum || c == '_' || c == '-'

/-- Is the character the letter before an exponent? -/
def isMark (c : Char) : Bool := c == 'e' || c == 'E'

namespace Progress

/-- The first character of a token. -/
def begin? (c : Char) : Option Progress :=
  if c.isDigit then some .digits
  else if beginsWord c then some .word
  else if isSpace c then some (.sign .blank)
  else match c with
    | '-' => some .minus
    | '.' => some .point
    | '"' => some .quoted
    | '(' => some (.sign .leftParen)
    | ')' => some (.sign .rightParen)
    | '=' => some (.sign (.relation .equal))
    | '<' => some (.sign (.relation .less))
    | '>' => some (.sign (.relation .greater))
    | '!' => some .bang
    | _ => none

/-- The next character of a token; none if no pattern goes on with it. -/
def step? : Progress → Char → Option Progress
  | .start, c => begin? c
  | .minus, c => if c.isDigit then some .digits else if c = '.' then some .point else none
  | .digits, c =>
    if c.isDigit then some .digits
    else if c = '.' then some .point
    else if isMark c then some .mark
    else none
  | .point, c => if c.isDigit then some .fraction else none
  | .fraction, c =>
    if c.isDigit then some .fraction else if isMark c then some .mark else none
  | .mark, c =>
    if c.isDigit then some .exponent
    else if c = '+' ∨ c = '-' then some .markSign
    else none
  | .markSign, c => if c.isDigit then some .exponent else none
  | .exponent, c => if c.isDigit then some .exponent else none
  | .quoted, c =>
    if c = '"' then some .closed else if c = '\\' then some .escape else some .quoted
  | .escape, c => if c = '\n' then none else some .quoted
  | .closed, _ => none
  | .word, c => if continuesWord c then some .word else none
  | .bang, c => if c = '=' then some (.sign (.relation .notEqual)) else none
  | .sign (.relation .less), c =>
    if c = '=' then some (.sign (.relation .lessOrEqual)) else none
  | .sign (.relation .greater), c =>
    if c = '=' then some (.sign (.relation .greaterOrEqual)) else none
  | .sign .blank, c => if isSpace c then some (.sign .blank) else none
  | .sign _, _ => none

/-- The kind of token that is complete here, if one is. -/
def kind? : Progress → Option Kind
  | .digits => some .integer
  | .fraction => some .real
  | .exponent => some .real
  | .closed => some .text
  | .word => some .word
  | .sign t => some (.sign t)
  | _ => none

end Progress

end FilterLang.Token
