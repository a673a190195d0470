import FilterLang.Cache.Callers
import FilterLang.Script

/-! Sessions: a table that grows, caches made from it as it is at the time, and requests to the
table or to one of the caches. All of them share the host's state. -/

namespace FilterLang

/-- A table, the caches made from it, and the host's state. -/
structure Session (σ : Type) where
  table : Table σ
  caches : List (Cache σ)
  world : World σ

/-- A request of a session. One that has a place goes to the cache with that number, or else to
the table. -/
inductive Request (σ : Type) where
  | insert (name : String) (symbol : Symbol σ)
  | extend (entries : List (String × Symbol σ))
  | info (name : String)
  | cache
  | get (name : String) (place : Option Nat)
  | evaluate (text : String) (place : Option Nat)
  | getTogether (name : String) (callers cache : Nat)

/-- The answer to a request. -/
inductive Answer (σ : Type) where
  | inserted (previous : Option (Symbol σ)) (size : Nat)
  | extended (size : Nat)
  | info (entry : Option (Symbol σ)) (size : Nat)
  | cache (number : Nat)
  | value (result : Except Failure Value)
  | truth (result : Except Problem Bool)
  | values (results : List (Except Failure Value))
  | noSuchCache

namespace Session

variable {σ : Type}

/-- A session over a table. -/
def start (table : Table σ) (host : σ) : Session σ := ⟨table, [], ⟨host, []⟩⟩

/-- Puts a used cache and the host's state back. -/
def put (s : Session σ) (i : Nat) (state : Cache σ × World σ) : Session σ :=
  { s with caches := s.caches.set i state.1, world := state.2 }

/-- Answers a request through the table or a cache. -/
def ask {α : Type} (s : Session σ) (place : Option Nat) (answer : α → Answer σ)
    (onTable : World σ → α × World σ) (onCache : Cache σ × World σ → α × Cache σ × World σ) :
    Answer σ × Session σ :=
  match place with
  | none =>
    let (result, world) := onTable s.world
    (answer result, { s with world := world })
  | some i =>
    match s.caches[i]? with
    | none => (.noSuchCache, s)
    | some c =>
      let (result, state) := onCache (c, s.world)
      (answer result, s.put i state)

/-- Answers a request; the log starts anew, so that it tells which resolvers ran for this one. -/
def step (s : Session σ) (r : Request σ) : Answer σ × Session σ :=
  let s := { s with world := { s.world with log := [] } }
  match r with
  | .insert name symbol =>
    let table := s.table.insert name symbol
    (.inserted (s.table.get? name) table.size, { s with table := table })
  | .extend entries =>
    let table := s.table.insertAll entries
    (.extended table.size, { s with table := table })
  | .info name => (.info (s.table.get? name) s.table.size, s)
  | .cache => (.cache s.caches.length, { s with caches := s.caches ++ [.new s.table] })
  | .get name place => s.ask place .value (s.table.get name) (Cache.get name)
  | .evaluate text place =>
    s.ask place .truth (evaluateText s.table.get text) (evaluateText Cache.get text)
  | .getTogether name callers cache =>
    match s.caches[cache]? with
    | none => (.noSuchCache, s)
    | some c =>
      let done := Callers.together callers name c s.world
      (.values done.answers, s.put cache (done.cache, done.world))

end Session

end FilterLang
