import FilterLang.Cache
import FilterLang.CommandLine.Arguments

/-! What the command does: it evaluates its expression, or lists the symbols of it. The expression
is read first, so that a faulty one is reported whatever the symbols file holds; a listing needs
no symbols, and so the file is not looked at. Nothing is printed before the result is known. The
wording of the system's and of the JSON reader's errors is theirs, and so a parameter here. -/

namespace FilterLang.CommandLine

/-- What the command leaves: its exit status, what it prints, and the text of its error. -/
structure Report where
  status : Nat
  output : String
  error : String
  deriving DecidableEq

/-- What the command finds in the system: the contents of the file at a path, or the system's reason
why there are none, and the reason that the JSON reader gives for contents that are no object. -/
structure Files where
  contents : String → Except String String
  refusal : String → String

/-- Files of which only the contents are of interest. -/
instance : Coe (String → Except String String) Files := ⟨fun contents => ⟨contents, fun _ => ""⟩⟩

/-- Why there is no result. -/
inductive RunError where
  | parse (e : ParseError)
  | unreadable (path reason : String)
  | noObject (path reason : String)
  | failure (f : Failure)

/-- The message of the error. -/
def RunError.message : RunError → String
  | .parse e => e.message
  | .unreadable path reason => "Failed to read the symbols file '" ++ path ++ "': " ++ reason
  | .noObject path reason => "The symbols file '" ++ path ++ "' is not a JSON object: " ++ reason
  | .failure (.error e) => e.message
  | .failure .crash => "The resolver of a symbol crashed."

/-- A text as a line. -/
def line (text : String) : String := text ++ "\n"

/-- The result as it is printed. -/
def resultText (result : Bool) : String := if result then "true" else "false"

/-- The exit status of a result. -/
def resultStatus (result : Bool) : Nat := if result then 0 else 1

/-- The table of a symbols file. -/
def fileTable (files : Files) (path : String) : Except RunError (Table Unit) :=
  match files.contents path with
  | .error reason => .error (.unreadable path reason)
  | .ok contents =>
    match Json.read? contents with
    | some (.object members) => .ok (.ofMembers members)
    | _ => .error (.noObject path (files.refusal contents))

namespace Command

/-- The table of the command: the symbols of its file, replaced by those of its arguments. -/
def table (c : Command) (files : Files) : Except RunError (Table Unit) :=
  let file := match c.file with
    | some path => fileTable files path
    | none => .ok .empty
  file.map fun t => t.insertAll (c.definitions.map fun d => (d.name, .value d.value))

/-- The result of a tree, with a line for each symbol consulted if that is asked for. -/
def evaluate (c : Command) (tree : Chain) (t : Table Unit) :
    Except Failure (Bool × List String) :=
  if c.cached then
    let (result, cache, _) := tree.evaluate Cache.get (.new t, ⟨(), []⟩)
    result.map fun b => (b, cache.used.entries.map fun (n, v) => n ++ " = " ++ v.render)
  else
    let (result, _) := tree.evaluate t.get ⟨(), []⟩
    result.map fun b => (b, [])

/-- The exit status and the lines of the output. -/
def lines (c : Command) (files : Files) : Except RunError (Nat × List String) := do
  let tree ← (parse c.expression).mapError .parse
  if c.list then return (0, tree.symbols)
  let t ← c.table files
  let (result, consulted) ← (c.evaluate tree t).mapError .failure
  return (resultStatus result, resultText result :: consulted)

/-- Carries the command out. -/
def run (c : Command) (files : Files) : Report :=
  match c.lines files with
  | .ok (status, lines) => ⟨status, String.join (lines.map line), ""⟩
  | .error e => ⟨2, "", e.message⟩

end Command

end FilterLang.CommandLine
