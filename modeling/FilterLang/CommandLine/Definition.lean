import FilterLang.Json.Text
import FilterLang.Text.Blank
import FilterLang.Value

/-! Definitions of symbols as command-line arguments: a name, an equals sign and a value, which is
JSON if it reads as a JSON scalar, and plain text otherwise. -/

namespace FilterLang.CommandLine

/-- A symbol with its value. -/
structure Definition where
  name : String
  value : Value
  deriving DecidableEq

/-- Why an argument defines nothing. -/
inductive DefinitionError where
  | noEquals (argument : String)
  | noName (argument : String)
  deriving DecidableEq

/-- The message of the error. -/
def DefinitionError.message : DefinitionError → String
  | .noEquals argument => "expected NAME=VALUE, found '" ++ argument ++ "'"
  | .noName argument => "missing symbol name in '" ++ argument ++ "'"

/-- The value that the text after the equals sign stands for. -/
def valueOf (text : String) : Value := ((Json.read? text).bind Value.ofJson?).getD (.text text)

/-- Reads a definition. The first equals sign ends the name, and blanks around the name are left
out. -/
def Definition.read (argument : String) : Except DefinitionError Definition :=
  let cs := argument.toList
  match cs.dropWhile (· ≠ '=') with
  | [] => .error (.noEquals argument)
  | _ :: value =>
    match Text.trim (cs.takeWhile (· ≠ '=')) with
    | [] => .error (.noName argument)
    | name => .ok ⟨String.ofList name, valueOf (String.ofList value)⟩

end FilterLang.CommandLine
