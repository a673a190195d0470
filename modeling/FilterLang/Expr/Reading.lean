import FilterLang.ParseError

/-! Reading a tree from tokens. The reader goes through the tokens once; what it has seen is kept
as the part of a chain before the next item, the comparison begun, and a stack of the groups still
open. Every state can be completed to a tree, so the first token that does not fit is reported
where it stands. -/

namespace FilterLang

/-- What came out of reading, and the tokens not consumed. -/
structure Reading (α : Type) where
  outcome : Except ParseError α
  rest : List Placed

/-- What precedes an item in its chain. -/
inductive Before where
  | nothing
  | chain (c : Chain) (connective : Connective)

/-- The chain up to and with an item. -/
def Before.add : Before → Expr → Chain
  | .nothing, e => .one e
  | .chain c k, e => .join c k e

/-- A group still open: the place of its parenthesis and what precedes it. -/
structure OpenGroup where
  offset : Nat
  before : Before

/-- What the next token has to be. -/
inductive Awaiting where
  /-- The first token of an item. -/
  | item (before : Before)
  /-- The relation after a left side. -/
  | relation (before : Before) (left : Operand)
  /-- The right side of a comparison. -/
  | right (before : Before) (left : Operand) (relation : Relation)
  /-- Whatever follows an item: a connective, or the end of the chain. -/
  | joint (chain : Chain)

/-- How much the outermost level is to hold: one item, or a chain as long as it goes on. -/
inductive Extent where
  | item
  | chain
  deriving DecidableEq

/-- The state of the reader; the innermost group comes first. -/
structure Reader where
  groups : List OpenGroup
  awaiting : Awaiting

/-- What a token does to the reader. -/
inductive Move where
  /-- It is consumed. -/
  | next (reader : Reader)
  /-- It stands behind what is to be read, which is complete. -/
  | stop (chain : Chain)
  /-- It is consumed and does not fit. -/
  | reject (error : ParseError)
  /-- It is left where it is and must not come here. -/
  | refuse (error : ParseError)

/-- The operand that a token has to be. -/
def Placed.operand (t : Placed) : Except ParseError Operand :=
  match t.token.operand? with
  | some o => .ok o
  | none => .error (.unexpectedToken .operand t.token t.offset)

/-- The relation that a token has to be. -/
def Placed.relation (t : Placed) : Except ParseError Relation :=
  match t.token.relation? with
  | some r => .ok r
  | none => .error (.unexpectedToken .relation t.token t.offset)

namespace Reader

/-- The reader before the first token. -/
def initial : Reader := ⟨[], .item .nothing⟩

/-- Goes on to another state of the innermost chain, if there is no error. -/
def orReject {α : Type} (r : Reader) (result : Except ParseError α) (next : α → Awaiting) : Move :=
  match result with
  | .ok a => .next { r with awaiting := next a }
  | .error e => .reject e

/-- Takes one token; `room` is how many groups may be open. -/
def step (extent : Extent) (room : Nat) (r : Reader) (t : Placed) : Move :=
  match r.awaiting with
  | .item before =>
    if t.token = .leftParen then
      if r.groups.length < room then .next ⟨⟨t.offset, before⟩ :: r.groups, .item .nothing⟩
      else .refuse (.nestingTooDeep t.offset)
    else r.orReject t.operand (.relation before)
  | .relation before left => r.orReject t.relation (.right before left)
  | .right before left relation =>
    r.orReject t.operand fun right => .joint (before.add (.comparison ⟨left, relation, right⟩))
  | .joint chain =>
    if r.groups.isEmpty ∧ extent = .item then .stop chain
    else match t.token.connective? with
      | some k => .next { r with awaiting := .item (.chain chain k) }
      | none =>
        match r.groups with
        | [] => .stop chain
        | g :: outer =>
          if t.token = .rightParen then .next ⟨outer, .joint (g.before.add (.group chain))⟩
          else .reject (.unexpectedToken .groupEnd t.token t.offset)

/-- What the reader has when the tokens end at the offset `eof`. -/
def finish (eof : Nat) (r : Reader) : Except ParseError Chain :=
  match r.awaiting with
  | .item _ => .error (.unexpectedEnd .operand eof)
  | .relation _ _ => .error (.unexpectedEnd .relation eof)
  | .right _ _ _ => .error (.unexpectedEnd .operand eof)
  | .joint chain =>
    match r.groups with
    | [] => .ok chain
    | g :: _ => .error (.unclosedGroup g.offset)

/-- Reads on to the end of what is to be read. -/
def run (extent : Extent) (room eof : Nat) (r : Reader) : List Placed → Reading Chain
  | [] => ⟨r.finish eof, []⟩
  | t :: ts =>
    match r.step extent room t with
    | .next r => run extent room eof r ts
    | .stop chain => ⟨.ok chain, t :: ts⟩
    | .reject e => ⟨.error e, ts⟩
    | .refuse e => ⟨.error e, t :: ts⟩

end Reader

namespace Reading

variable {α β : Type}

/-- Goes on reading behind what is read, if there is no error. -/
def andThen (r : Reading α) (next : α → List Placed → Reading β) : Reading β :=
  match r.outcome with
  | .ok a => next a r.rest
  | .error e => ⟨.error e, r.rest⟩

/-- Reads one token, with `expected` to come and the tokens ending at the offset `eof`. -/
def token (expected : Expected) (eof : Nat) (read : Placed → Except ParseError α) :
    List Placed → Reading α
  | [] => ⟨.error (.unexpectedEnd expected eof), []⟩
  | t :: ts => ⟨read t, ts⟩

/-- Reads an operand. -/
def operand (eof : Nat) : List Placed → Reading Operand := token .operand eof Placed.operand

/-- Reads a comparison. -/
def comparison (eof : Nat) (ts : List Placed) : Reading Comparison :=
  (operand eof ts).andThen fun left ts =>
  (token .relation eof Placed.relation ts).andThen fun relation ts =>
  (operand eof ts).andThen fun right ts => ⟨.ok ⟨left, relation, right⟩, ts⟩

/-- Reads one item, which becomes a chain of its own; `depth` groups are open around it. -/
def item (depth eof : Nat) (ts : List Placed) : Reading Chain :=
  Reader.initial.run .item (maxDepth - depth) eof ts

/-- Reads a chain as far as it goes; `depth` groups are open around it. -/
def chain (depth eof : Nat) (ts : List Placed) : Reading Chain :=
  Reader.initial.run .chain (maxDepth - depth) eof ts

/-- Reads a chain that no token may follow. -/
def source (eof : Nat) : List Placed → Reading Chain
  | [] => ⟨.error .empty, []⟩
  | t :: ts =>
    (chain 0 eof (t :: ts)).andThen fun c rest =>
      match rest with
      | [] => ⟨.ok c, []⟩
      | extra :: rest => ⟨.error (.trailingToken extra.token extra.offset), rest⟩

end Reading

end FilterLang
