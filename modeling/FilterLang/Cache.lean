import FilterLang.Expr.Evaluate

/-! A memoizing source over a table. Every name has a slot, which at most one attempt to resolve
it holds at a time. A value stays for good; a failure is kept only for those who waited for the
attempt, and the next request tries again; a crash leaves the slot vacant. Beside the slots the
cache records which names were resolved, to what, and which have failed without success since. -/

namespace FilterLang

/-- The state of a slot. Attempts are numbered from one. -/
inductive SlotState where
  | vacant
  | resolving (attempt : Nat)
  | resolved (v : Value)
  | failed (attempt : Nat) (e : EvalError)
  deriving DecidableEq

/-- The slot of a name, with the number of attempts begun. -/
structure Slot where
  attempts : Nat
  state : SlotState
  deriving DecidableEq

/-- What a caller who looks at a slot does next. -/
inductive Look where
  /-- It has its answer. -/
  | answer (result : Except EvalError Value)
  /-- It waits for the attempt. -/
  | wait (attempt : Nat)
  /-- It begins the attempt. -/
  | begin (attempt : Nat)

namespace Slot

/-- A slot that nobody has asked for. -/
def vacant : Slot := ⟨0, .vacant⟩

/-- What a caller does who last waited for the attempt `waited`. It takes a failure only from that
attempt. -/
def look (s : Slot) (waited : Option Nat) : Look :=
  match s.state with
  | .resolved v => .answer (.ok v)
  | .resolving k => .wait k
  | .failed k e => if waited = some k then .answer (.error e) else .begin (s.attempts + 1)
  | .vacant => .begin (s.attempts + 1)

end Slot

/-- The state that the outcome of an attempt leaves. -/
def SlotState.settled (attempt : Nat) : Except Failure Value → SlotState
  | .ok v => .resolved v
  | .error (.error e) => .failed attempt e
  | .error .crash => .vacant

/-- A memoizing source: a table that no longer changes, the slots and the records. -/
structure Cache (σ : Type) where
  table : Table σ
  slots : NameMap Slot
  used : NameMap Value
  failed : NameMap Unit

namespace Cache

variable {σ : Type}

/-- A fresh cache over a table. -/
def new (table : Table σ) : Cache σ := ⟨table, .empty, .empty, .empty⟩

/-- The slot of a name. -/
def slot (c : Cache σ) (name : String) : Slot := (c.slots.get? name).getD .vacant

/-- Puts a slot in the place of the one a name has. -/
def setSlot (c : Cache σ) (name : String) (s : Slot) : Cache σ :=
  { c with slots := c.slots.insert name s }

/-- Marks an attempt as begun. -/
def begin (c : Cache σ) (name : String) (attempt : Nat) : Cache σ :=
  c.setSlot name ⟨attempt, .resolving attempt⟩

/-- Writes the outcome of an attempt into the records. A crash leaves no trace there. -/
def record (c : Cache σ) (name : String) : Except Failure Value → Cache σ
  | .ok v => { c with used := c.used.insert name v, failed := c.failed.erase name }
  | .error (.error _) => { c with failed := c.failed.insert name () }
  | .error .crash => c

/-- Writes the outcome of an attempt into the slot. -/
def publish (c : Cache σ) (name : String) (attempt : Nat) (outcome : Except Failure Value) :
    Cache σ :=
  c.setSlot name { c.slot name with state := .settled attempt outcome }

@[simp] theorem slot_setSlot (c : Cache σ) (name other : String) (s : Slot) :
    (c.setSlot name s).slot other = if other = name then s else c.slot other := by
  simp only [slot, setSlot, NameMap.get?_insert]
  split <;> rfl

@[simp] theorem slot_begin (c : Cache σ) (name other : String) (attempt : Nat) :
    (c.begin name attempt).slot other =
      if other = name then ⟨attempt, .resolving attempt⟩ else c.slot other :=
  c.slot_setSlot name other _

@[simp] theorem slot_record (c : Cache σ) (name other : String)
    (outcome : Except Failure Value) : (c.record name outcome).slot other = c.slot other := by
  unfold record
  split <;> rfl

@[simp] theorem slot_publish (c : Cache σ) (name other : String) (attempt : Nat)
    (outcome : Except Failure Value) :
    (c.publish name attempt outcome).slot other =
      if other = name then { c.slot name with state := .settled attempt outcome }
      else c.slot other :=
  c.slot_setSlot name other _

@[simp] theorem table_record (c : Cache σ) (name : String) (outcome : Except Failure Value) :
    (c.record name outcome).table = c.table := by
  unfold record
  split <;> rfl

/-- Answers a request when no other is under way. An attempt that has not ended can then only be
the caller's own, and waiting for it would never end; such a request counts as crashed. -/
def get : Source (Cache σ × World σ) := fun name (c, w) =>
  match c.table.get? name with
  | none => (.error (.error (.unknownSymbol name)), c, w)
  | some symbol =>
    match (c.slot name).look none with
    | .answer result => (result.mapError .error, c, w)
    | .wait _ => (.error .crash, c, w)
    | .begin k =>
      let c := c.begin name k
      let (outcome, w) := symbol.resolve name w
      (outcome, (c.record name outcome).publish name k outcome, w)

end Cache

end FilterLang
