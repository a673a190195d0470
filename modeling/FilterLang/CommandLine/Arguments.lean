import FilterLang.CommandLine.Definition

/-! The arguments of the command line, read as clap 4.5 reads them with its default settings:
options and the expression may stand in any order, a long option is not abbreviated, and letters may
share a dash. An argument that begins with a dash is an option, unless it is the dash alone or
stands behind `--`. A flag and the file may be given once, and the path of the file is not empty.

An option takes its value from the same argument or from the next one that is no option. A value of
an argument of its own is looked at when the option ends, that is at the next option, at the
expression, or at the end. So an unknown argument is reported before a bad value that stands in
front of it. -/

namespace FilterLang.CommandLine

/-- An option that takes a value. -/
inductive ValueOption where
  | symbol
  | file
  deriving DecidableEq

/-- An option that takes none. -/
inductive Flag where
  | list
  | cached
  | help
  | version
  deriving DecidableEq

/-- Why arguments are not accepted, or what is asked for instead of an evaluation. -/
inductive Usage where
  | unknownArgument
  | badDefinition (e : DefinitionError)
  | missingExpression
  | missingValue
  | repeated
  | needlessValue
  | help
  | version
  deriving DecidableEq

/-- The options that are settled. -/
structure Options where
  definitions : List Definition
  file : Option String
  list : Bool
  cached : Bool
  expression : Option String

/-- No options. -/
def Options.none : Options := ⟨[], .none, false, false, .none⟩

/-- An option whose values are still being collected. -/
structure Pending where
  option : ValueOption
  value : Option String

/-- How far the arguments are read: what is settled, what is pending, and whether options have
ended. -/
structure Progress where
  settled : Options
  pending : Option Pending
  ended : Bool

/-- Settles the value of an option. -/
def Options.add (o : Options) (option : ValueOption) (value : String) : Except Usage Options :=
  match option with
  | .symbol =>
    match Definition.read value with
    | .ok d => .ok { o with definitions := o.definitions ++ [d] }
    | .error e => .error (.badDefinition e)
  | .file =>
    if o.file.isSome then .error .repeated
    else if value = "" then .error .missingValue
    else .ok { o with file := some value }

/-- Settles a flag. -/
def Options.set (o : Options) : Flag → Except Usage Options
  | .list => if o.list then .error .repeated else .ok { o with list := true }
  | .cached => if o.cached then .error .repeated else .ok { o with cached := true }
  | .help => .error .help
  | .version => .error .version

/-- The option of a long name. -/
def longOption? : String → Option (ValueOption ⊕ Flag)
  | "symbol" => some (.inl .symbol)
  | "symbols-file" => some (.inl .file)
  | "list" => some (.inr .list)
  | "cached" => some (.inr .cached)
  | "help" => some (.inr .help)
  | "version" => some (.inr .version)
  | _ => none

/-- The option of a letter. -/
def shortOption? : Char → Option (ValueOption ⊕ Flag)
  | 's' => some (.inl .symbol)
  | 'f' => some (.inl .file)
  | 'h' => some (.inr .help)
  | 'V' => some (.inr .version)
  | _ => none

namespace Progress

/-- Before the first argument. -/
def start : Progress := ⟨.none, none, false⟩

/-- Settles the pending option. -/
def settle (p : Progress) : Except Usage Progress :=
  match p.pending with
  | none => .ok p
  | some ⟨_, none⟩ => .error .missingValue
  | some ⟨option, some value⟩ =>
    (p.settled.add option value).map fun o => { p with settled := o, pending := none }

/-- Begins an option, with a value of the same argument or one still to come. -/
def option (p : Progress) (option : ValueOption) (attached : Option String) :
    Except Usage Progress :=
  p.settle.bind fun p =>
    match attached with
    | some value => (p.settled.add option value).map fun o => { p with settled := o }
    | none => .ok { p with pending := some ⟨option, none⟩ }

/-- Takes a flag. -/
def flag (p : Progress) (f : Flag) : Except Usage Progress :=
  p.settle.bind fun p => (p.settled.set f).map fun o => { p with settled := o }

/-- Takes a long option, given what follows the two dashes. -/
def long (p : Progress) (cs : List Char) : Except Usage Progress :=
  let attached := match cs.dropWhile (· ≠ '=') with
    | [] => none
    | _ :: value => some (String.ofList value)
  match longOption? (String.ofList (cs.takeWhile (· ≠ '='))) with
  | none => .error .unknownArgument
  | some (.inl o) => p.option o attached
  | some (.inr f) => if attached.isSome then .error .needlessValue else p.flag f

/-- Takes short options, given what follows the dash. The rest after a letter that takes a value
is the value, without an equals sign in front. -/
def short (p : Progress) : List Char → Except Usage Progress
  | [] => .ok p
  | c :: rest =>
    match shortOption? c with
    | none => .error .unknownArgument
    | some (.inr f) => (p.flag f).bind fun p => p.short rest
    | some (.inl o) =>
      match rest with
      | [] => p.option o none
      | '=' :: value => p.option o (some (String.ofList value))
      | value => p.option o (some (String.ofList value))

/-- Takes an argument that is no option: the value of the pending one, or else the expression. -/
def plain (p : Progress) (argument : String) : Except Usage Progress :=
  match p.ended, p.pending with
  | false, some ⟨o, none⟩ => .ok { p with pending := some ⟨o, some argument⟩ }
  | _, _ =>
    if p.settled.expression.isSome then .error .unknownArgument
    else p.settle.map fun p => { p with settled := { p.settled with expression := some argument } }

/-- Takes an argument. -/
def take (p : Progress) (argument : String) : Except Usage Progress :=
  if p.ended then p.plain argument
  else match argument.toList with
    | ['-', '-'] => .ok { p with ended := true }
    | '-' :: '-' :: rest => p.long rest
    | ['-'] => p.plain argument
    | '-' :: rest => p.short rest
    | _ => p.plain argument

end Progress

/-- What the arguments ask for. -/
structure Command where
  definitions : List Definition
  file : Option String
  list : Bool
  cached : Bool
  expression : String

/-- Reads the arguments, the name of the program left out. -/
def read (arguments : List String) : Except Usage Command := do
  let p ← arguments.foldlM Progress.take .start
  let p ← p.settle
  match p.settled.expression with
  | some e => .ok ⟨p.settled.definitions, p.settled.file, p.settled.list, p.settled.cached, e⟩
  | none => .error .missingExpression

end FilterLang.CommandLine
