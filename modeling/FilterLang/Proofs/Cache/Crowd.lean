import FilterLang.Proofs.Cache.Requests

/-! Evaluations among the callers of a cache. An evaluation sends one request after the other: it
waits for the answer to each, goes on with a value and ends with a failure. Between its steps
anything may happen, so that a crowd of requests and evaluations takes the course of its requests.
An evaluation that nobody disturbs comes to the result of the sequential account. -/

namespace FilterLang

variable {σ : Type}

/-- An evaluation under way: what is left of its inquiry, and the caller that its request has, if it
has sent one. -/
structure Evaluation where
  rest : Inquiry Bool
  caller : Option Nat

namespace Evaluation

/-- The next step of an evaluation: it sends its request, or goes on with the value that has
answered it. -/
def proceed (r : Course σ) : Evaluation → Course σ × Evaluation
  | ⟨.stop result, caller⟩ => (r, ⟨.stop result, caller⟩)
  | ⟨.ask name next, none⟩ =>
    (r.next (.arrive name), ⟨.ask name next, some r.now.callers.length⟩)
  | ⟨.ask name next, some i⟩ =>
    match r.now.callers[i]? with
    | some ⟨_, .answered (.ok v)⟩ => (r, ⟨next v, none⟩)
    | _ => (r, ⟨.ask name next, some i⟩)

/-- The result of an evaluation, if it has come to one. -/
def result? (r : Course σ) : Evaluation → Option (Except Failure Bool)
  | ⟨.stop result, _⟩ => some (result.mapError .error)
  | ⟨.ask _ _, none⟩ => none
  | ⟨.ask _ _, some i⟩ =>
    match r.now.callers[i]? with
    | some ⟨_, .answered (.error f)⟩ => some (.error f)
    | _ => none

end Evaluation

/-- A cache with its callers and the evaluations that some of them ask for. -/
structure Crowd (σ : Type) where
  course : Course σ
  evaluations : List Evaluation

/-- What may happen next to a crowd. -/
inductive Action (σ : Type) where
  /-- A request comes in, a caller makes a step, or the host program changes its state. -/
  | event (e : Event σ)
  /-- An evaluation begins. -/
  | evaluate (tree : Chain)
  /-- An evaluation makes its next step, if it has one. -/
  | proceed (evaluation : Nat)

namespace Crowd

/-- A fresh cache over a table, before the first request. -/
def start (table : Table σ) (host : σ) : Crowd σ := ⟨.start table host, []⟩

/-- What an action makes of a crowd. -/
def next (c : Crowd σ) : Action σ → Crowd σ
  | .event e => { c with course := c.course.next e }
  | .evaluate tree => { c with evaluations := c.evaluations ++ [⟨tree.inquiry, none⟩] }
  | .proceed j =>
    match c.evaluations[j]? with
    | none => c
    | some evaluation =>
      let (course, evaluation) := evaluation.proceed c.course
      ⟨course, c.evaluations.set j evaluation⟩

/-- The crowd after a number of actions. -/
def run (c : Crowd σ) (actions : List (Action σ)) : Crowd σ := actions.foldl next c

@[simp] theorem run_nil (c : Crowd σ) : c.run [] = c := rfl

@[simp] theorem run_cons (c : Crowd σ) (a : Action σ) (actions : List (Action σ)) :
    c.run (a :: actions) = (c.next a).run actions := rfl

theorem run_append (c : Crowd σ) (actions later : List (Action σ)) :
    c.run (actions ++ later) = (c.run actions).run later :=
  List.foldl_append

theorem run_events (c : Crowd σ) (events : List (Event σ)) :
    c.run (events.map .event) = { c with course := c.course.run events } := by
  induction events generalizing c with
  | nil => rfl
  | cons e events ih => exact ih (c.next (.event e))

/-- A step of an evaluation sends at most one request. -/
theorem exists_events_proceed (r : Course σ) (evaluation : Evaluation) :
    ∃ events, (evaluation.proceed r).1 = r.run events := by
  obtain ⟨_ | ⟨name, next⟩, _ | i⟩ := evaluation
  · exact ⟨[], rfl⟩
  · exact ⟨[], rfl⟩
  · exact ⟨[.arrive name], rfl⟩
  · refine ⟨[], ?_⟩
    simp only [Evaluation.proceed]
    split <;> rfl

/-- A crowd takes a course that its requests could take alone. -/
theorem exists_events (c : Crowd σ) (actions : List (Action σ)) :
    ∃ events, (c.run actions).course = c.course.run events := by
  induction actions generalizing c with
  | nil => exact ⟨[], rfl⟩
  | cons a actions ih =>
    have hfirst : ∃ events, (c.next a).course = c.course.run events := by
      cases a with
      | event e => exact ⟨[e], rfl⟩
      | evaluate tree => exact ⟨[], rfl⟩
      | proceed j =>
        simp only [next]
        split
        · exact ⟨[], rfl⟩
        · exact exists_events_proceed c.course _
    obtain ⟨first, hfirst⟩ := hfirst
    obtain ⟨later, hlater⟩ := ih (c.next a)
    exact ⟨first ++ later, by rw [run_cons, hlater, hfirst, Course.run_append]⟩

/-- What happens when an evaluation alone sends a request that is answered before anything else. -/
def asking (r : Course σ) : List (Action σ) :=
  .proceed 0 :: (List.replicate 6 (.step r.now.callers.length)).map .event

theorem run_asking (r : Course σ) (name : String) (next : Value → Inquiry Bool) :
    (Crowd.mk r [⟨.ask name next, none⟩]).run (asking r) =
      ⟨r.run (r.asking name), [⟨.ask name next, some r.now.callers.length⟩]⟩ := by
  rw [asking, run_cons, run_events, Course.asking, Course.run_cons]
  rfl

/-- An evaluation that nobody disturbs comes to the result of the sequential account, and leaves
the cache and the world as that says. -/
theorem exists_alone (q : Inquiry Bool) {r : Course σ}
    (hfree : ∀ name k, (r.now.cache.slot name).state ≠ .resolving k) :
    ∃ actions evaluation, let done := (Crowd.mk r [⟨q, none⟩]).run actions
      done.evaluations = [evaluation] ∧
      evaluation.result? done.course = some (q.run Cache.get (r.now.cache, r.now.world)).1 ∧
      (done.course.now.cache, done.course.now.world) =
        (q.run Cache.get (r.now.cache, r.now.world)).2 := by
  induction q generalizing r with
  | stop result => exact ⟨[], _, rfl, rfl, rfl⟩
  | ask name next ih =>
    have hafter := fun other => Cache.ne_resolving_get (hfree other) r.now.world name
    have hasked := run_asking r name next
    rcases hget : Cache.get name (r.now.cache, r.now.world) with ⟨answer, cache, world⟩
    rw [hget] at hafter
    simp only [Inquiry.run, hget]
    obtain ⟨rfl, rfl, hanswer⟩ := Course.run_asking (hfree name) hget
    generalize r.run (r.asking name) = answered at hanswer hasked hafter
    cases answer with
    | error f =>
      refine ⟨asking r, ⟨.ask name next, some r.now.callers.length⟩, ?_⟩
      rw [hasked]
      exact ⟨rfl, by simp only [Evaluation.result?, hanswer], rfl⟩
    | ok v =>
      obtain ⟨actions, evaluation, hlast⟩ := ih v hafter
      have hwent : (Crowd.mk answered [⟨.ask name next, some r.now.callers.length⟩]).next
          (.proceed 0) = ⟨answered, [⟨next v, none⟩]⟩ := by
        simp [Crowd.next, Evaluation.proceed, hanswer]
      refine ⟨asking r ++ .proceed 0 :: actions, evaluation, ?_⟩
      rw [run_append, hasked, run_cons, hwent]
      exact hlast

end Crowd

end FilterLang
