import FilterLang.Symbol

/-! Scripted resolvers: the host's state counts the calls of each script, and a script answers its
n-th call with its n-th outcome, the last one being repeated. A script is known by its number, so
that tables and caches that hold the same script share its count. -/

namespace FilterLang

/-- How often each script has been called; a script beyond the end has not been. -/
abbrev Counts := List Nat

namespace Counts

/-- How often a script has been called. -/
def calls (counts : Counts) (script : Nat) : Nat := counts.getD script 0

/-- Counts one more call of a script. -/
def tick : (script : Nat) → Counts → Counts
  | 0, [] => [1]
  | 0, n :: rest => (n + 1) :: rest
  | script + 1, [] => 0 :: tick script []
  | script + 1, n :: rest => n :: tick script rest

theorem calls_tick (counts : Counts) (script : Nat) :
    (counts.tick script).calls script = counts.calls script + 1 := by
  induction script generalizing counts with
  | zero => cases counts <;> rfl
  | succ script ih =>
    cases counts with
    | nil => exact ih []
    | cons n rest => exact ih rest

theorem calls_tick_of_ne {script other : Nat} (h : other ≠ script) (counts : Counts) :
    (counts.tick script).calls other = counts.calls other := by
  induction script generalizing other counts with
  | zero =>
    obtain ⟨k, rfl⟩ := Nat.exists_eq_succ_of_ne_zero h
    cases counts <;> rfl
  | succ script ih =>
    cases other with
    | zero => cases counts <;> rfl
    | succ other =>
      have hne : other ≠ script := fun heq => h (congrArg _ heq)
      cases counts with
      | nil => exact ih hne []
      | cons n rest => exact ih hne rest

end Counts

namespace Script

/-- The outcome of a call after `calls` others. Without any outcomes, a call crashes. -/
def outcome (calls : Nat) : List Outcome → Outcome
  | [] => .crash
  | [last] => last
  | first :: rest =>
    match calls with
    | 0 => first
    | calls + 1 => outcome calls rest

/-- The resolver of a script. -/
def symbol (script : Nat) (outcomes : List Outcome) : Symbol Counts :=
  .resolver fun counts => (outcome (counts.calls script) outcomes, counts.tick script)

end Script

end FilterLang
