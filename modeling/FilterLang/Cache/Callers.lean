import FilterLang.Cache

/-! Callers of one cache at the same time. A request is a sequence of steps, each of which happens
at once; the steps of different callers may come in any order. Only a caller that waits for an
attempt cannot step; the one whose attempt it is wakes it. -/

namespace FilterLang

/-- How far a request has come. -/
inductive Phase where
  /-- The name has not been looked up. -/
  | arriving
  /-- The slot is to be looked at, after waiting for the attempt if there was one. -/
  | looking (waited : Option Nat)
  /-- Waiting for an attempt. -/
  | asleep (attempt : Nat)
  /-- The resolver is to run. -/
  | resolving (attempt : Nat)
  /-- The outcome is to be recorded. -/
  | recording (attempt : Nat) (outcome : Except Failure Value)
  /-- The outcome is to be published in the slot. -/
  | publishing (attempt : Nat) (outcome : Except Failure Value)
  /-- Those who wait are to be woken. -/
  | waking (outcome : Except Failure Value)
  /-- The request is answered. -/
  | answered (result : Except Failure Value)

/-- A request for a name. -/
structure Caller where
  name : String
  phase : Phase

/-- A cache with those who ask it. -/
structure Callers (σ : Type) where
  cache : Cache σ
  world : World σ
  callers : List Caller

/-- Wakes a caller that waits for a name. -/
def Caller.wake (name : String) (c : Caller) : Caller :=
  if c.name = name then
    match c.phase with
    | .asleep k => { c with phase := .looking (some k) }
    | _ => c
  else c

namespace Callers

variable {σ : Type}

/-- Moves a caller on. -/
def move (s : Callers σ) (i : Nat) (phase : Phase) : Callers σ :=
  { s with callers := s.callers.modify i fun c => { c with phase := phase } }

/-- The step of a caller that is to look at its slot. -/
def look (s : Callers σ) (i : Nat) (name : String) (waited : Option Nat) : Callers σ :=
  match (s.cache.slot name).look waited with
  | .answer result => s.move i (.answered (result.mapError .error))
  | .wait k => s.move i (.asleep k)
  | .begin k => { s with cache := s.cache.begin name k }.move i (.resolving k)

/-- The step of a caller whose resolver is to run. -/
def resolve (s : Callers σ) (i : Nat) (name : String) (attempt : Nat) : Callers σ :=
  match s.cache.table.get? name with
  | none => s.move i (.answered (.error (.error (.unknownSymbol name))))
  | some symbol =>
    let (outcome, world) := symbol.resolve name s.world
    { s with world := world }.move i (.recording attempt outcome)

/-- The next step of a caller, if it has one. -/
def step? (s : Callers σ) (i : Nat) : Option (Callers σ) :=
  s.callers[i]?.bind fun caller =>
    let name := caller.name
    match caller.phase with
    | .arriving =>
      match s.cache.table.get? name with
      | none => some (s.move i (.answered (.error (.error (.unknownSymbol name)))))
      | some _ =>
        some ({ s with cache := s.cache.setSlot name (s.cache.slot name) }.move i (.looking none))
    | .looking waited => some (s.look i name waited)
    | .asleep _ => none
    | .resolving k => some (s.resolve i name k)
    | .recording k outcome =>
      some ({ s with cache := s.cache.record name outcome }.move i (.publishing k outcome))
    | .publishing k outcome =>
      some ({ s with cache := s.cache.publish name k outcome }.move i (.waking outcome))
    | .waking outcome =>
      some ({ s with callers := s.callers.map (Caller.wake name) }.move i (.answered outcome))
    | .answered _ => none

/-- Lets a caller make a number of steps, or as many of them as it can. -/
def advance (i : Nat) : (steps : Nat) → Callers σ → Callers σ
  | 0, s => s
  | steps + 1, s =>
    match s.step? i with
    | some s => advance i steps s
    | none => s

/-- Lets each of the first callers make a number of steps in turn. -/
def round (steps count : Nat) (s : Callers σ) : Callers σ :=
  (List.range count).foldl (fun s i => s.advance i steps) s

/-- Callers that ask for one name at the same time: all of them look at the slot before the first
attempt goes on, and then each finishes in turn. -/
def together (count : Nat) (name : String) (cache : Cache σ) (world : World σ) : Callers σ :=
  let start : Callers σ := ⟨cache, world, List.replicate count ⟨name, .arriving⟩⟩
  (start.round 2 count).round 6 count

/-- The answers that the callers have got. -/
def answers (s : Callers σ) : List (Except Failure Value) :=
  s.callers.filterMap fun c =>
    match c.phase with
    | .answered result => some result
    | _ => none

end Callers

end FilterLang
