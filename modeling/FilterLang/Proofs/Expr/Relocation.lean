import FilterLang.Expr.Reading
import FilterLang.Proofs.Expr.Reader
import FilterLang.Proofs.Token.Locality

/-! Reading does not look at offsets; it only hands them on. So moving the tokens and the end of the
source by any map moves the places that are reported by the same map, and changes nothing else. -/

namespace FilterLang

variable {α : Type} (f : Nat → Nat)

/-- The error at the offset that a map gives for its own. -/
def ParseError.relocate : ParseError → ParseError
  | .invalidToken fragment p => .invalidToken fragment (f p)
  | .unexpectedToken expected found p => .unexpectedToken expected found (f p)
  | .unexpectedEnd expected p => .unexpectedEnd expected (f p)
  | .unclosedGroup p => .unclosedGroup (f p)
  | .trailingToken found p => .trailingToken found (f p)
  | .nestingTooDeep p => .nestingTooDeep (f p)
  | .empty => .empty

/-- The error without its place. -/
def ParseError.unplaced : ParseError → ParseError := relocate fun _ => 0

/-- The open group with its parenthesis moved. -/
def OpenGroup.relocate (g : OpenGroup) : OpenGroup := { g with offset := f g.offset }

/-- The result of reading with all places moved. -/
def Reading.relocate (r : Reading α) : Reading α :=
  ⟨r.outcome.mapError (ParseError.relocate f), r.rest.map (Placed.relocate f)⟩

namespace Reader

/-- The state with the parentheses of its groups moved. -/
def relocate (r : Reader) : Reader := ⟨r.groups.map (OpenGroup.relocate f), r.awaiting⟩

end Reader

/-- What a token does, with all places moved. -/
def Move.relocate : Move → Move
  | .next r => .next (r.relocate f)
  | .stop c => .stop c
  | .reject e => .reject (e.relocate f)
  | .refuse e => .refuse (e.relocate f)

namespace Reader

variable {extent : Extent} {room eof : Nat}

theorem orReject_relocate (r : Reader) (result : Except ParseError α) (next : α → Awaiting) :
    (r.relocate f).orReject (result.mapError (ParseError.relocate f)) next =
      (r.orReject result next).relocate f := by
  cases result <;> rfl

theorem operand_relocate (t : Placed) :
    (t.relocate f).operand = t.operand.mapError (ParseError.relocate f) := by
  unfold Placed.operand
  have htoken : (t.relocate f).token = t.token := rfl
  rw [htoken]
  cases t.token.operand? <;> rfl

theorem relation_relocate (t : Placed) :
    (t.relocate f).relation = t.relation.mapError (ParseError.relocate f) := by
  unfold Placed.relation
  have htoken : (t.relocate f).token = t.token := rfl
  rw [htoken]
  cases t.token.relation? <;> rfl

theorem step_relocate (r : Reader) (t : Placed) :
    (r.relocate f).step extent room (t.relocate f) = (r.step extent room t).relocate f := by
  obtain ⟨gs, awaiting⟩ := r
  have htoken : (t.relocate f).token = t.token := rfl
  have hlength : (gs.map (OpenGroup.relocate f)).length = gs.length := List.length_map _
  cases awaiting with
  | item before =>
    simp only [step, relocate, htoken, hlength]
    split
    · split <;> rfl
    · rw [operand_relocate]
      exact orReject_relocate f ⟨gs, .item before⟩ _ _
  | relation before o =>
    simp only [step, relocate, relation_relocate]
    exact orReject_relocate f ⟨gs, .relation before o⟩ _ _
  | right before o rel =>
    simp only [step, relocate, operand_relocate]
    exact orReject_relocate f ⟨gs, .right before o rel⟩ _ _
  | joint c =>
    simp only [step, relocate, htoken, List.isEmpty_map]
    split
    · rfl
    · split
      · rfl
      · cases gs with
        | nil => rfl
        | cons g gs =>
          simp only [List.map_cons]
          split <;> rfl

theorem finish_relocate (r : Reader) :
    (r.relocate f).finish (f eof) = (r.finish eof).mapError (ParseError.relocate f) := by
  obtain ⟨gs, awaiting⟩ := r
  cases awaiting with
  | joint c => cases gs <;> rfl
  | _ => rfl

theorem run_relocate (r : Reader) (ts : List Placed) :
    (r.relocate f).run extent room (f eof) (ts.map (Placed.relocate f)) =
      (r.run extent room eof ts).relocate f := by
  induction ts generalizing r with
  | nil =>
    rw [List.map_nil, run, run, finish_relocate]
    rfl
  | cons t ts ih =>
    rw [List.map_cons, run, run, step_relocate]
    cases r.step extent room t with
    | next r' => exact ih r'
    | _ => rfl

theorem Passes.relocate {r r' : Reader} {ts : List Placed} (h : Passes extent room r ts r') :
    Passes extent room (r.relocate f) (ts.map (Placed.relocate f)) (r'.relocate f) := by
  induction h with
  | nil => exact .nil
  | cons first _ ih =>
    refine .cons (advances_of_step ?_) ih
    rw [step_relocate, step_of_advances first]
    rfl

end Reader

namespace Reading

theorem source_relocate (eof : Nat) (ts : List Placed) :
    source (f eof) (ts.map (Placed.relocate f)) = (source eof ts).relocate f := by
  cases ts with
  | nil => rfl
  | cons t ts =>
    have hchain : chain 0 (f eof) ((t :: ts).map (Placed.relocate f)) =
        (chain 0 eof (t :: ts)).relocate f :=
      Reader.initial.run_relocate f (t :: ts)
    rw [List.map_cons] at hchain ⊢
    rw [source, source, andThen, andThen, hchain]
    rcases chain 0 eof (t :: ts) with ⟨outcome, rest⟩
    cases outcome with
    | error e => rfl
    | ok c => cases rest <;> rfl

/-- Sources with the same tokens are read alike, up to the places of errors. -/
theorem source_unplaced {eof eof' : Nat} {ts us : List Placed}
    (h : ts.map Placed.token = us.map Placed.token) :
    (source eof ts).outcome.mapError ParseError.unplaced =
      (source eof' us).outcome.mapError ParseError.unplaced := by
  have hzero : ∀ xs : List Placed, xs.map (Placed.relocate fun _ => 0) =
      (xs.map Placed.token).map fun t => ⟨t, 0⟩ := by
    intro xs
    rw [List.map_map]
    rfl
  have hsame : ts.map (Placed.relocate fun _ => 0) = us.map (Placed.relocate fun _ => 0) := by
    rw [hzero, hzero, h]
  have hts := congrArg Reading.outcome (source_relocate (fun _ => 0) eof ts)
  have hus := congrArg Reading.outcome (source_relocate (fun _ => 0) eof' us)
  rw [hsame] at hts
  exact hts.symm.trans hus

end Reading

end FilterLang
