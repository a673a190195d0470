import FilterLang.EvalError
import FilterLang.NameMap

/-! Symbol tables. An entry is a value, JSON data, or a resolver: a computation in the host
program, which may answer differently at every call, fail, or crash. The host's state is a
parameter; what the library adds to it is a log of the resolvers that ran. -/

namespace FilterLang

/-- What comes out of a resolver. -/
inductive Outcome where
  | value (v : Value)
  | failure (reason : String)
  | crash

/-- Why a request has no answer: an error, or a resolver that crashed. -/
inductive Failure where
  | error (e : EvalError)
  | crash
  deriving DecidableEq

/-- An entry of a table. A resolver works on the host's state alone: it is taken not to ask the
cache that it belongs to, whose slots are no part of that state. -/
inductive Symbol (σ : Type) where
  | value (v : Value)
  | json (data : Json)
  | resolver (run : σ → Outcome × σ)

/-- The state of the host program, with the names whose resolvers have run, the last one first. -/
structure World (σ : Type) where
  host : σ
  log : List String

/-- A symbol table. -/
abbrev Table (σ : Type) := NameMap (Symbol σ)

/-- Where values of names come from: it may keep a state of its own. -/
abbrev Source (τ : Type) := String → τ → Except Failure Value × τ

variable {σ : Type}

/-- The answer for a resolver's outcome. -/
def Outcome.answer (name : String) : Outcome → Except Failure Value
  | .value v => .ok v
  | .failure reason => .error (.error (.resolver name reason))
  | .crash => .error .crash

/-- Produces the value of an entry, running its resolver if it has one. -/
def Symbol.resolve (name : String) : Symbol σ → World σ → Except Failure Value × World σ
  | .value v, w => (.ok v, w)
  | .json data, w =>
    match Value.ofJson? data with
    | some v => (.ok v, w)
    | none => (.error (.error (.notScalar name data.kind)), w)
  | .resolver run, w =>
    let (outcome, host) := run w.host
    (outcome.answer name, ⟨host, name :: w.log⟩)

/-- How a value is shown as an entry. -/
def Value.entryText (v : Value) : String :=
  let constructor := match v with
    | .integer _ => "Integer"
    | .real _ => "Real"
    | .text _ => "Str"
    | .boolean _ => "Bool"
  constructor ++ "(" ++ v.render ++ ")"

/-- How an entry is shown, without running anything. -/
def Symbol.entryText : Symbol σ → String
  | .value v => "Value(" ++ v.entryText ++ ")"
  | .json data => "Json(" ++ data.kind ++ ")"
  | .resolver _ => "Lazy(..)"

namespace Table

/-- The table of the members of a JSON object. -/
def ofMembers (members : List (String × Json)) : Table σ :=
  .ofList (members.map fun m => (m.1, .json m.2))

/-- Resolves a name anew at every request. -/
def get (t : Table σ) : Source (World σ) := fun name w =>
  match t.get? name with
  | some symbol => symbol.resolve name w
  | none => (.error (.error (.unknownSymbol name)), w)

end Table

end FilterLang
