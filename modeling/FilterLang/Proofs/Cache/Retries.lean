import FilterLang.Proofs.Cache.Lasting
import FilterLang.Proofs.Cache.Transparent

/-! Trying again. Whoever asks a fresh cache for one name time after time gets the outcomes of its
script one by one, until a call comes to a value; from then on every request gets that value and
nothing is called. The records follow: the value once there is one, and before it a failure if a
call has come to an error. Errors and crashes leave different slots, but the next request finds
both of them free. -/

namespace FilterLang

variable {σ τ : Type}

namespace Script

/-- No call before the one with the number comes to a value; calls are counted from zero. -/
def Fruitless (outcomes : List Outcome) (calls : Nat) : Prop :=
  ∀ i < calls, ∀ v, outcome i outcomes ≠ .value v

/-- The call with the number is the first that comes to a value, and to which. -/
structure FirstValue (outcomes : List Outcome) (call : Nat) (v : Value) : Prop where
  before : Fruitless outcomes call
  value : outcome call outcomes = .value v

theorem fruitless_zero {outcomes : List Outcome} : Fruitless outcomes 0 :=
  fun i hi => absurd hi (Nat.not_lt_zero i)

theorem Fruitless.succ {outcomes : List Outcome} {calls : Nat} (h : Fruitless outcomes calls)
    (hnext : ∀ v, outcome calls outcomes ≠ .value v) : Fruitless outcomes (calls + 1) := by
  intro i hi
  rcases Nat.lt_succ_iff_lt_or_eq.mp hi with hi | rfl
  · exact h i hi
  · exact hnext

/-- Among a number of calls there is a first one with a value, or none has any. -/
theorem fruitless_or_exists_firstValue (outcomes : List Outcome) (calls : Nat) :
    Fruitless outcomes calls ∨ ∃ k < calls, ∃ v, FirstValue outcomes k v := by
  induction calls with
  | zero => exact .inl fruitless_zero
  | succ calls ih =>
    rcases ih with h | ⟨k, hk, hfirst⟩
    · by_cases hvalue : ∃ v, outcome calls outcomes = .value v
      · obtain ⟨v, hv⟩ := hvalue
        exact .inr ⟨calls, Nat.lt_succ_self calls, v, h, hv⟩
      · exact .inl (h.succ (not_exists.mp hvalue))
    · exact .inr ⟨k, Nat.lt_succ_of_lt hk, hfirst⟩

end Script

/-- What is no value is answered with a failure. -/
theorem Outcome.exists_answer_eq_error {outcome : Outcome} (h : ∀ v, outcome ≠ .value v)
    (name : String) : ∃ f, outcome.answer name = .error f := by
  cases outcome with
  | value v => exact absurd rfl (h v)
  | failure reason => exact ⟨_, rfl⟩
  | crash => exact ⟨_, rfl⟩

/-- What is no value leaves the used values alone, and only an error counts as a failure. -/
theorem Attempt.note_answer {outcome : Outcome} (h : ∀ v, outcome ≠ .value v) (name : String)
    (before : Option Value × Option Unit) :
    (note (outcome.answer name) before).1 = before.1 ∧
      ((note (outcome.answer name) before).2 = some () ↔
        before.2 = some () ∨ ∃ reason, outcome = .failure reason) := by
  cases outcome with
  | value v => exact absurd rfl (h v)
  | failure reason => simp [Outcome.answer, note]
  | crash => simp [Outcome.answer, note]

/-! ### Requests in a row -/

theorem replies_append (source : Source τ) (first rest : List Question) (s : τ) :
    replies source (first ++ rest) s =
      ((replies source first s).1 ++ (replies source rest (replies source first s).2).1,
        (replies source rest (replies source first s).2).2) := by
  induction first generalizing s with
  | nil => rfl
  | cons question first ih =>
    simp only [List.cons_append, replies, ih]

/-- A source that answers a name without changing goes on to do so. -/
theorem replies_replicate_of_still {source : Source τ} {name : String}
    {answer : Except Failure Value} {s : τ} (h : source name s = (answer, s)) (n : Nat) :
    replies source (.replicate n (.value name)) s = (.replicate n (.value answer), s) := by
  induction n with
  | zero => rfl
  | succ n ih => simp only [List.replicate_succ, replies, Question.reply, h, ih]

namespace Cache

/-- The cache and the world after calls of a script that came to no value. -/
structure Tried (table : Table Counts) (name : String) (script : Nat) (outcomes : List Outcome)
    (calls : Nat) (s : Cache Counts × World Counts) : Prop where
  table_eq : s.1.table = table
  free : ∃ k, (s.1.slot name).look none = .begin k
  unused : s.1.used.get? name = none
  failed_iff : s.1.failed.get? name = some () ↔
    ∃ i < calls, ∃ reason, Script.outcome i outcomes = .failure reason
  others : ∀ other, other ≠ name → s.1.notes other = (none, none)
  calls_eq : s.2.host.calls script = calls
  log_eq : s.2.log = .replicate calls name

/-- The cache and the world after calls of a script of which the last one came to a value. -/
structure Found (name : String) (script calls : Nat) (v : Value)
    (s : Cache Counts × World Counts) : Prop where
  keeps : s.1.Keeps name (.ok v)
  notes_eq : s.1.notes name = (some v, none)
  others : ∀ other, other ≠ name → s.1.notes other = (none, none)
  calls_eq : s.2.host.calls script = calls
  log_eq : s.2.log = .replicate calls name

section Script

variable {table : Table Counts} {name : String} {script calls : Nat} {outcomes : List Outcome}
  {v : Value} {s : Cache Counts × World Counts}

theorem tried_new (table : Table Counts) (name : String) (outcomes : List Outcome)
    {host : Counts} (hhost : host.calls script = 0) :
    Tried table name script outcomes 0 (new table, ⟨host, []⟩) where
  table_eq := rfl
  free := ⟨1, rfl⟩
  unused := rfl
  failed_iff := by simp [new]
  others _ _ := rfl
  calls_eq := hhost
  log_eq := rfl

/-- The next request calls the script once more. -/
theorem Tried.get_eq (h : Tried table name script outcomes calls s)
    (hsymbol : table.get? name = some (Script.symbol script outcomes)) :
    ∃ k, get name s =
      ((Script.outcome calls outcomes).answer name,
        s.1.settle name k ((Script.outcome calls outcomes).answer name),
        ⟨s.2.host.tick script, name :: s.2.log⟩) := by
  obtain ⟨c, w⟩ := s
  obtain ⟨k, hk⟩ := h.free
  have hentry : c.table.get? name = some (Script.symbol script outcomes) := by
    rw [h.table_eq, hsymbol]
  have hcalls : w.host.calls script = calls := h.calls_eq
  refine ⟨k, ?_⟩
  simp only [get, hentry, hk, Script.symbol, Symbol.resolve, hcalls]
  rfl

/-- The records of other names stay empty, and the call is counted and logged. -/
theorem Tried.after (h : Tried table name script outcomes calls s) (k : Nat)
    (outcome : Except Failure Value) :
    (∀ other, other ≠ name → (s.1.settle name k outcome).notes other = (none, none)) ∧
      (s.2.host.tick script).calls script = calls + 1 ∧
      name :: s.2.log = .replicate (calls + 1) name := by
  refine ⟨fun other hother => ?_, ?_, ?_⟩
  · rw [notes_settle, if_neg hother, h.others other hother]
  · rw [Counts.calls_tick, h.calls_eq]
  · rw [h.log_eq, List.replicate_succ]

/-- A call without a value is answered with its outcome, and the name can be tried again. -/
theorem Tried.fails (h : Tried table name script outcomes calls s)
    (hsymbol : table.get? name = some (Script.symbol script outcomes))
    (hnext : ∀ v, Script.outcome calls outcomes ≠ .value v) :
    (get name s).1 = (Script.outcome calls outcomes).answer name ∧
      Tried table name script outcomes (calls + 1) (get name s).2 := by
  obtain ⟨k, hget⟩ := h.get_eq hsymbol
  rw [hget]
  obtain ⟨f, hanswer⟩ := Outcome.exists_answer_eq_error hnext name
  obtain ⟨hothers, hcalls, hlog⟩ := h.after k ((Script.outcome calls outcomes).answer name)
  have hnotes : (s.1.settle name k ((Script.outcome calls outcomes).answer name)).notes name =
      Attempt.note ((Script.outcome calls outcomes).answer name) (s.1.notes name) := by
    rw [notes_settle, if_pos rfl]
  obtain ⟨hused, hfailed⟩ := Attempt.note_answer hnext name (s.1.notes name)
  rw [← hnotes] at hused hfailed
  refine ⟨rfl, (table_settle _ _ _ _).trans h.table_eq, ⟨k + 1, ?_⟩, hused.trans h.unused, ?_,
    hothers, hcalls, hlog⟩
  · rw [hanswer]
    exact s.1.look_settle_error name k f
  · rw [Nat.exists_lt_succ_right, ← h.failed_iff]
    exact hfailed

/-- A call with a value is answered with it, and the cache keeps it. -/
theorem Tried.finds (h : Tried table name script outcomes calls s)
    (hsymbol : table.get? name = some (Script.symbol script outcomes))
    (hnext : Script.outcome calls outcomes = .value v) :
    (get name s).1 = .ok v ∧ Found name script (calls + 1) v (get name s).2 := by
  obtain ⟨k, hget⟩ := h.get_eq hsymbol
  rw [hnext] at hget
  have hkeeps := keeps_of_ok (congrArg Prod.fst hget)
  rw [hget] at hkeeps ⊢
  obtain ⟨hothers, hcalls, hlog⟩ := h.after k (.ok v)
  refine ⟨rfl, hkeeps, ?_, hothers, hcalls, hlog⟩
  rw [notes_settle, if_pos rfl]
  rfl

/-- As long as no call comes to a value, each request gets the next outcome. -/
theorem Tried.replies_of_fruitless (h : Tried table name script outcomes calls s)
    (hsymbol : table.get? name = some (Script.symbol script outcomes)) (n : Nat)
    (hnone : Script.Fruitless outcomes (calls + n)) :
    (replies get (.replicate n (.value name)) s).1 =
        (List.range' calls n).map (fun i => .value ((Script.outcome i outcomes).answer name)) ∧
      Tried table name script outcomes (calls + n)
        (replies get (.replicate n (.value name)) s).2 := by
  induction n generalizing calls s with
  | zero => exact ⟨rfl, h⟩
  | succ n ih =>
    obtain ⟨hanswer, hafter⟩ := h.fails hsymbol (hnone calls (by omega))
    rw [show calls + (n + 1) = calls + 1 + n by omega] at hnone ⊢
    obtain ⟨hanswers, hlast⟩ := ih hafter hnone
    rw [List.range'_succ, List.map_cons, ← hanswers, ← hanswer]
    exact ⟨rfl, hlast⟩

/-- From the first value on, all requests get it. -/
theorem Tried.replies_of_value (h : Tried table name script outcomes calls s)
    (hsymbol : table.get? name = some (Script.symbol script outcomes))
    (hnext : Script.outcome calls outcomes = .value v) (n : Nat) :
    (replies get (.replicate (n + 1) (.value name)) s).1 = .replicate (n + 1) (.value (.ok v)) ∧
      Found name script (calls + 1) v (replies get (.replicate (n + 1) (.value name)) s).2 := by
  obtain ⟨hanswer, hfound⟩ := h.finds hsymbol hnext
  have hrest := replies_replicate_of_still (hfound.keeps.get_ok (get name s).2.2) n
  rw [List.replicate_succ, replies, Question.reply, List.replicate_succ]
  simp only [hanswer, hrest]
  exact ⟨trivial, hfound⟩

end Script

/-- A number of requests for one name, made to a fresh cache one after the other. Without a value
among that many outcomes of the script, each request gets the next outcome. Otherwise the requests
get the outcomes before the first value, and then that value only; the script is called up to this
value and no further. The value is recorded once there is one, and before that a failure is if
there is any. -/
theorem replies_script {table : Table Counts} {name : String} {script : Nat}
    {outcomes : List Outcome} {host : Counts}
    (hsymbol : table.get? name = some (Script.symbol script outcomes))
    (hhost : host.calls script = 0) (n : Nat) :
    let answer (i : Nat) : Reply := .value ((Script.outcome i outcomes).answer name)
    let done := replies get (.replicate n (.value name)) (new table, ⟨host, []⟩)
    (Script.Fruitless outcomes n ∨ ∃ k < n, ∃ v, Script.FirstValue outcomes k v) ∧
    (Script.Fruitless outcomes n →
      done.1 = (List.range n).map answer ∧
      done.2.2.log = .replicate n name ∧ done.2.2.host.calls script = n ∧
      done.2.1.used.get? name = none ∧
      (done.2.1.failed.get? name = some () ↔
        ∃ i < n, ∃ reason, Script.outcome i outcomes = .failure reason)) ∧
    (∀ k v, k < n → Script.FirstValue outcomes k v →
      done.1 = (List.range k).map answer ++ .replicate (n - k) (.value (.ok v)) ∧
      done.2.2.log = .replicate (k + 1) name ∧ done.2.2.host.calls script = k + 1 ∧
      done.2.1.used.get? name = some v ∧ done.2.1.failed.get? name = none) ∧
    ∀ other, other ≠ name →
      done.2.1.used.get? other = none ∧ done.2.1.failed.get? other = none := by
  intro answer done
  have hnew : Tried table name script outcomes 0 (new table, ⟨host, []⟩) :=
    tried_new table name outcomes hhost
  have hnone : Script.Fruitless outcomes n →
      done.1 = (List.range n).map answer ∧ Tried table name script outcomes n done.2 := by
    intro h
    have hreplies := hnew.replies_of_fruitless hsymbol n (by rwa [Nat.zero_add])
    rwa [Nat.zero_add, ← List.range_eq_range'] at hreplies
  have hvalue : ∀ k v, k < n → Script.FirstValue outcomes k v →
      done.1 = (List.range k).map answer ++ .replicate (n - k) (.value (.ok v)) ∧
        Found name script (k + 1) v done.2 := by
    intro k v hk hfirst
    obtain ⟨m, rfl⟩ := Nat.exists_eq_add_of_lt hk
    have hbefore := hnew.replies_of_fruitless hsymbol k (by rw [Nat.zero_add]; exact hfirst.before)
    rw [Nat.zero_add, ← List.range_eq_range'] at hbefore
    obtain ⟨hanswers, hfound⟩ := hbefore.2.replies_of_value hsymbol hfirst.value m
    have hsplit : List.replicate (k + m + 1) (Question.value name) =
        .replicate k (.value name) ++ .replicate (m + 1) (.value name) := by
      rw [List.replicate_append_replicate, Nat.add_assoc]
    rw [show k + m + 1 - k = m + 1 by omega, ← hanswers, ← hbefore.1]
    simp only [done, hsplit, replies_append]
    exact ⟨trivial, hfound⟩
  refine ⟨Script.fruitless_or_exists_firstValue outcomes n, fun h => ?_, fun k v hk hfirst => ?_,
    fun other hother => ?_⟩
  · obtain ⟨hanswers, htried⟩ := hnone h
    exact ⟨hanswers, htried.log_eq, htried.calls_eq, htried.unused, htried.failed_iff⟩
  · obtain ⟨hanswers, hfound⟩ := hvalue k v hk hfirst
    exact ⟨hanswers, hfound.log_eq, hfound.calls_eq, congrArg Prod.fst hfound.notes_eq,
      congrArg Prod.snd hfound.notes_eq⟩
  · have hothers : done.2.1.notes other = (none, none) := by
      rcases Script.fruitless_or_exists_firstValue outcomes n with h | ⟨k, hk, v, hfirst⟩
      · exact (hnone h).2.others other hother
      · exact (hvalue k v hk hfirst).2.others other hother
    exact ⟨congrArg Prod.fst hothers, congrArg Prod.snd hothers⟩

/-- A script of an error, a crash and a value. -/
def faltering : List Outcome := [.failure "down", .crash, .value (.integer 1)]

/-- After two requests `x` has failed; the third one gets the value, and the next two do without
the script. -/
theorem replies_script_faltering :
    let table : Table Counts := NameMap.empty.insert "x" (Script.symbol 0 faltering)
    let two := replies get (.replicate 2 (.value "x")) (new table, ⟨[], []⟩)
    let five := replies get (.replicate 5 (.value "x")) (new table, ⟨[], []⟩)
    Script.Fruitless faltering 2 ∧ Script.FirstValue faltering 2 (.integer 1) ∧
      two.2.1.used.get? "x" = none ∧ two.2.1.failed.get? "x" = some () ∧
      five.1 = [.value (.error (.error (.resolver "x" "down"))), .value (.error .crash),
        .value (.ok (.integer 1)), .value (.ok (.integer 1)), .value (.ok (.integer 1))] ∧
      five.2.2.log = ["x", "x", "x"] ∧ five.2.1.used.get? "x" = some (.integer 1) ∧
      five.2.1.failed.get? "x" = none := by
  intro table two five
  have hsymbol : table.get? "x" = some (Script.symbol 0 faltering) := rfl
  have hhost : Counts.calls [] 0 = 0 := rfl
  have hbefore : Script.Fruitless faltering 2 := by
    refine Script.Fruitless.succ (Script.Fruitless.succ Script.fruitless_zero ?_) ?_
    · simp [faltering, Script.outcome]
    · simp [faltering, Script.outcome]
  have hfirst : Script.FirstValue faltering 2 (.integer 1) := ⟨hbefore, rfl⟩
  obtain ⟨-, -, -, hunused, hfailed⟩ := (replies_script hsymbol hhost 2).2.1 hbefore
  obtain ⟨hanswers, hlog, -, hused, hunfailed⟩ :=
    (replies_script hsymbol hhost 5).2.2.1 2 (.integer 1) (by decide) hfirst
  have hdown : two.2.1.failed.get? "x" = some () := hfailed.mpr ⟨0, by decide, "down", rfl⟩
  exact ⟨hbefore, hfirst, hunused, hdown, hanswers, hlog, hused, hunfailed⟩

end Cache

end FilterLang
