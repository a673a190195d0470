import FilterLang.CommandLine.Run

/-! The command itself: it reads the arguments and the symbols file, prints what the run reports,
and exits with its status. -/

namespace FilterLang.CommandLine

/-- What the arguments have to look like. -/
def synopsis : String :=
  "Usage: filter [-s NAME=VALUE]... [-f PATH] [--list] [--cached] EXPRESSION"

/-- The message for arguments that are not accepted. -/
def Usage.message : Usage → String
  | .unknownArgument => "error: unknown argument"
  | .badDefinition e => "error: " ++ e.message
  | .missingExpression => "error: no expression given"
  | .missingValue => "error: an option lacks its value"
  | .repeated => "error: an option is given twice"
  | .needlessValue => "error: an option takes no value"
  | .help => "Evaluates a boolean filter expression against named values."
  | .version => "filter 0.1.0"

/-- The exit status for arguments that are not accepted; to ask for help is no error. -/
def Usage.status : Usage → UInt32
  | .help => 0
  | .version => 0
  | _ => 2

/-- Reads the file at a path. -/
def readContents (path : String) : IO (Except String String) := do
  try
    return .ok (← IO.FS.readFile path)
  catch e =>
    return .error (toString e)

/-- Prints a report and gives its exit status. -/
def Report.print (r : Report) : IO UInt32 := do
  IO.print r.output
  if r.error ≠ "" then IO.eprintln r.error
  return r.status.toUInt32

/-- What is said of a symbols file that holds no JSON object; the words are the program's own, since
the reader keeps no reason. -/
def refusal (contents : String) : String :=
  match Json.read? contents with
  | some other => "found " ++ other.kind
  | none => "found no JSON"

/-- Carries a command out on the files of the system. -/
def Command.main (c : Command) : IO UInt32 := do
  let contents ← match c.file with
    | some path => readContents path
    | none => pure (.ok "")
  (c.run ⟨fun _ => contents, refusal⟩).print

end FilterLang.CommandLine

open FilterLang.CommandLine in
def main (arguments : List String) : IO UInt32 := do
  match FilterLang.CommandLine.read arguments with
  | .ok c => c.main
  | .error u =>
    IO.eprintln (u.message ++ "\n" ++ synopsis)
    return u.status
