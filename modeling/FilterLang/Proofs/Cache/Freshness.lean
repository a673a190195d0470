import FilterLang.Proofs.Cache.Waiters
import Mathlib.Data.List.Induction

/-! Failures are fresh. Whoever is answered by a failure has taken part in the attempt that came to
it: at some moment since the request came in, the slot was being resolved by that attempt, and the
caller held it or waited for it. An attempt whose outcome has been published is never under way
again, since the numbers of attempts only go up; so nobody who comes later is answered by its
failure, although the slot goes on to hold it. -/

namespace FilterLang

variable {σ : Type}

/-- Only who has waited for the attempt that failed is answered by its error. -/
theorem Slot.look_eq_answer_error {s : Slot} {waited : Option Nat} {e : EvalError}
    (h : s.look waited = .answer (.error e)) : ∃ k, waited = some k ∧ s.state = .failed k e := by
  obtain ⟨attempts, state⟩ := s
  cases state with
  | vacant => cases h
  | resolving l => cases h
  | resolved v => cases h
  | failed l e' =>
    simp only [look] at h
    split at h
    next hwaited =>
      cases h
      exact ⟨l, hwaited, rfl⟩
    next => cases h

/-- A slot that holds an error has it from the attempt with its number. -/
theorem Slot.exists_of_after_failed {attempts : List Attempt} {k : Nat} {e : EvalError}
    (h : (after attempts).state = .failed k e) :
    ∃ name, ⟨name, k, .error (.error e)⟩ ∈ attempts := by
  cases attempts with
  | nil => cases h
  | cons a earlier =>
    obtain ⟨name, l, outcome⟩ := a
    refine ⟨name, ?_⟩
    rcases outcome with (e' | _) | v <;> cases h
    exact List.mem_cons_self

/-- What the phase of a caller tells of the attempts that it has taken part in: it waits for one of
them or holds one, and its answer, if that is a failure, is the outcome of one. -/
def Phase.Follows (name : String) (attempts : List Attempt) (joined : Nat → Prop) : Phase → Prop
  | .arriving => True
  | .looking none => True
  | .looking (some k) => joined k
  | .asleep k => joined k
  | .resolving k => joined k
  | .recording k outcome => joined k ∧ ⟨name, k, outcome⟩ ∈ attempts
  | .publishing k outcome => joined k ∧ ⟨name, k, outcome⟩ ∈ attempts
  | .waking outcome => ∃ k, joined k ∧ ⟨name, k, outcome⟩ ∈ attempts
  | .answered (.ok _) => True
  | .answered (.error f) => ∃ k, joined k ∧ ⟨name, k, .error f⟩ ∈ attempts

section Follows

variable {name : String} {attempts attempts' : List Attempt} {joined joined' : Nat → Prop}
  {phase : Phase}

theorem Phase.Follows.mono (h : phase.Follows name attempts joined)
    (hattempts : attempts ⊆ attempts')
    (hjoined : ∀ k, joined k → joined' k) : phase.Follows name attempts' joined' := by
  cases phase with
  | arriving => trivial
  | looking waited =>
    cases waited with
    | none => trivial
    | some k => exact hjoined k h
  | asleep k => exact hjoined k h
  | resolving k => exact hjoined k h
  | recording k outcome => exact ⟨hjoined k h.1, hattempts h.2⟩
  | publishing k outcome => exact ⟨hjoined k h.1, hattempts h.2⟩
  | waking outcome =>
    obtain ⟨k, hk, hmem⟩ := h
    exact ⟨k, hjoined k hk, hattempts hmem⟩
  | answered result =>
    cases result with
    | ok v => trivial
    | error f =>
      obtain ⟨k, hk, hmem⟩ := h
      exact ⟨k, hjoined k hk, hattempts hmem⟩

theorem Phase.Follows.wake (h : phase.Follows name attempts joined) (waking : String) :
    ∃ phase', (Caller.mk name phase).wake waking = ⟨name, phase'⟩ ∧
      phase'.Follows name attempts joined := by
  unfold Caller.wake
  split
  · cases phase with
    | asleep k => exact ⟨.looking (some k), rfl, h⟩
    | _ => exact ⟨_, rfl, h⟩
  · exact ⟨phase, rfl, h⟩

end Follows

namespace Course

/-- The name is being resolved by an attempt that the caller with a number holds or waits for. -/
def TakesPart (r : Course σ) (i : Nat) (name : String) (k : Nat) : Prop :=
  (r.now.cache.slot name).state = .resolving k ∧
    ∃ phase, r.now.callers[i]? = some ⟨name, phase⟩ ∧
      (phase.attempt? = some k ∨ phase = .asleep k)

/-- The attempt has come to its outcome, and the name is not being resolved by it any more. -/
def Ended (r : Course σ) (name : String) (k : Nat) : Prop :=
  (∃ outcome, ⟨name, k, outcome⟩ ∈ r.past) ∧ (r.now.cache.slot name).state ≠ .resolving k

section

variable {r : Course σ} {t : Callers σ} {i k : Nat} {name other : String} {phase : Phase}
  {joined : Nat → Prop}

/-! ### Attempts that have ended -/

/-- An attempt that is under way after a step was so before, or has just begun. -/
theorem resolving_step {s : Callers σ} (h : s.Moves i name phase t)
    (hi : s.callers[i]? = some ⟨name, phase⟩) (hk : (t.cache.slot other).state = .resolving k) :
    (s.cache.slot other).state = .resolving k ∨ k = (s.cache.slot other).attempts + 1 := by
  by_cases hne : other = name
  · subst hne
    cases h with
    | enter => exact .inl (by simpa [Callers.move] using hk)
    | begin hlook =>
      simp only [Callers.move, Cache.slot_begin, ↓reduceIte, SlotState.resolving.injEq] at hk
      exact .inr (hk ▸ (Slot.look_eq_begin hlook).1)
    | record => exact .inl (by simpa [Callers.move] using hk)
    | publish =>
      simp only [Callers.move, Cache.slot_publish, ↓reduceIte] at hk
      exact absurd hk (SlotState.settled_ne_resolving _ k _)
    | _ => exact .inl hk
  · rw [(h.elsewhere hi hne).2.1] at hk
    exact .inl hk

theorem Sound.number_le_attempts (hr : r.Sound) {outcome : Except Failure Value}
    (h : ⟨name, k, outcome⟩ ∈ r.past) : k ≤ (r.now.cache.slot name).attempts :=
  calc k ≤ (r.attempts name).length := (hr.inOrder name).number_le _ (mem_attempts.mpr h)
    _ ≤ (r.now.cache.slot name).attempts := (hr.stage name).length_attempts_le (hr.inOrder name)

/-- An attempt that has ended is never under way again. -/
theorem Sound.ended_next (hr : r.Sound) (h : r.Ended name k) (e : Event σ) :
    (r.next e).Ended name k := by
  cases e with
  | arrive other => exact h
  | host state => exact h
  | step i =>
    rcases r.next_step_cases i with hsame | ⟨other, phase, t, hi, hmoves, hnext⟩
    · rwa [hsame]
    · rw [hnext]
      obtain ⟨⟨outcome, hmem⟩, hfree⟩ := h
      refine ⟨⟨outcome, List.mem_append_right _ hmem⟩, fun hk => ?_⟩
      rcases resolving_step hmoves hi hk with hbefore | hbegun
      · exact hfree hbefore
      · have := hr.number_le_attempts hmem
        omega

theorem Sound.ended_run (hr : r.Sound) (h : r.Ended name k) (later : List (Event σ)) :
    (r.run later).Ended name k :=
  (run_keeps (P := fun r => r.Sound ∧ r.Ended name k)
    (fun _ e hr => ⟨hr.1.next e, hr.1.ended_next hr.2 e⟩) ⟨hr, h⟩ later).2

/-! ### Attempts taken part in -/

/-- The step of a caller who asks for a name of the table. -/
theorem Sound.follows_own (hr : r.Sound) (h : r.now.Moves i name phase t)
    (hi : r.now.callers[i]? = some ⟨name, phase⟩) (hname : (r.now.cache.table.get? name).isSome)
    (hfollows : phase.Follows name (r.attempts name) joined)
    (hjoined : ∀ k, TakesPart ⟨t, t.concluded i ++ r.past⟩ i name k → joined k) :
    ∃ phase', t.callers[i]? = some ⟨name, phase'⟩ ∧
      phase'.Follows name (attempts ⟨t, t.concluded i ++ r.past⟩ name) joined := by
  have hsubset := attempts_subset_step r t i name
  have hlater := hfollows.mono hsubset fun _ hk => hk
  have hconcluded := h.concluded_eq hi
  cases h with
  | refuse hnone => simp [hnone] at hname
  | enter => exact ⟨_, Callers.getElem?_move_self hi _, trivial⟩
  | @answer waited result hlook =>
    refine ⟨_, Callers.getElem?_move_self hi _, ?_⟩
    cases result with
    | ok v => trivial
    | error e =>
      -- The slot holds the error of the attempt that the caller has waited for.
      obtain ⟨k, rfl, hfailed⟩ := Slot.look_eq_answer_error hlook
      obtain ⟨-, hafter, -⟩ :=
        (hr.stage name).of_not_resolving (Slot.ne_resolving_of_answer hlook)
      obtain ⟨other, hmem⟩ := Slot.exists_of_after_failed (hafter ▸ hfailed)
      obtain rfl : other = name := name_of_mem_attempts hmem
      exact ⟨k, hlater, hsubset hmem⟩
  | @wait waited k hlook =>
    refine ⟨_, Callers.getElem?_move_self hi _, hjoined k ⟨Slot.look_eq_wait hlook, ?_⟩⟩
    exact ⟨_, Callers.getElem?_move_self hi _, .inr rfl⟩
  | @begin waited k hlook =>
    refine ⟨_, Callers.getElem?_move_self hi _, hjoined k ⟨by simp [Callers.move], ?_⟩⟩
    exact ⟨_, Callers.getElem?_move_self hi _, .inl rfl⟩
  | @conclude k symbol hsymbol =>
    refine ⟨_, Callers.getElem?_move_self hi _, hlater, ?_⟩
    rw [hsymbol] at hconcluded
    rw [hconcluded]
    simp [attempts]
  | lose hnone => simp [hnone] at hname
  | record => exact ⟨_, Callers.getElem?_move_self hi _, hlater⟩
  | @publish k outcome => exact ⟨_, Callers.getElem?_move_self hi _, k, hlater⟩
  | @wake outcome =>
    refine ⟨_, Callers.getElem?_move_self (Callers.getElem?_wake hi (by simp) name) _, ?_⟩
    cases outcome with
    | ok v => trivial
    | error f => exact hlater

/-- The caller with a number asks for the name, and has come no further than the attempts allow that
it has taken part in. -/
def Follows (r : Course σ) (i : Nat) (name : String) (joined : Nat → Prop) : Prop :=
  ∃ phase, r.now.callers[i]? = some ⟨name, phase⟩ ∧
    phase.Follows name (r.attempts name) joined

/-- Whatever happens, a caller comes no further than the attempts allow that it takes part in. -/
theorem Sound.follows_next (hr : r.Sound) (hname : (r.now.cache.table.get? name).isSome)
    (h : r.Follows i name joined) (e : Event σ)
    (hjoined : ∀ k, (r.next e).TakesPart i name k → joined k) :
    (r.next e).Follows i name joined := by
  obtain ⟨phase, hi, hfollows⟩ := h
  cases e with
  | arrive other => exact ⟨phase, getElem?_arrive hi other, hfollows⟩
  | host state => exact ⟨phase, hi, hfollows⟩
  | step j =>
    rcases r.next_step_cases j with hsame | ⟨other, old, t, hj, hmoves, hnext⟩
    · rw [hsame]
      exact ⟨phase, hi, hfollows⟩
    · rw [hnext] at hjoined ⊢
      by_cases hij : i = j
      · subst hij
        obtain ⟨rfl, rfl⟩ : name = other ∧ phase = old := by simpa [hi] using hj
        exact hr.follows_own hmoves hi hname hfollows hjoined
      · have hlater := hfollows.mono (attempts_subset_step r t j name) fun _ hk => hk
        rcases hmoves.getElem?_of_ne hij with hsame | hwoken
        · exact ⟨phase, hsame.trans hi, hlater⟩
        · obtain ⟨phase', hwake, hlater⟩ := hlater.wake other
          exact ⟨phase', by rw [hwoken, hi, Option.map_some, hwake], hlater⟩

theorem table_run (r : Course σ) (events : List (Event σ)) :
    (r.run events).now.cache.table = r.now.cache.table := by
  refine run_keeps (P := fun r' => r'.now.cache.table = r.now.cache.table) (fun r' e h => ?_) rfl
    events
  cases e with
  | arrive name => exact h
  | host state => exact h
  | step i =>
    rcases r'.next_step_cases i with hsame | ⟨name, phase, t, -, hmoves, hnext⟩
    · rwa [hsame]
    · rw [hnext]
      exact hmoves.table_eq.trans h

/-- The attempts that a caller takes part in while events happen. -/
def Joined (r : Course σ) (i : Nat) (name : String) (events : List (Event σ)) (k : Nat) : Prop :=
  ∃ first, first <+: events ∧ (r.run first).TakesPart i name k

/-- From its arrival on, a caller comes no further than the attempts allow that it takes part in. -/
theorem Sound.follows_run (hr : r.Sound) (hname : (r.now.cache.table.get? name).isSome)
    (hi : r.now.callers[i]? = some ⟨name, .arriving⟩) (later : List (Event σ)) :
    (r.run later).Follows i name (r.Joined i name later) := by
  induction later using List.reverseRecOn with
  | nil => exact ⟨_, hi, trivial⟩
  | append_singleton events e ih =>
    have hlast : (r.run (events ++ [e])) = (r.run events).next e := r.run_append events [e]
    have hrun : (r.run events).Sound := run_keeps (fun _ e hr => hr.next e) hr events
    rw [hlast]
    refine hrun.follows_next (by rwa [table_run]) ?_ e fun k hk => ?_
    · obtain ⟨phase, hphase, hfollows⟩ := ih
      refine ⟨phase, hphase, hfollows.mono (fun _ ha => ha) ?_⟩
      rintro k ⟨first, hfirst, hk⟩
      exact ⟨first, hfirst.trans (List.prefix_append events [e]), hk⟩
    · exact ⟨events ++ [e], List.prefix_refl _, hlast ▸ hk⟩

end

/-- A request for a name of the table that is answered by a failure. At some moment since it came
in, the name was being resolved by an attempt that its caller held or waited for, and this failure
is what that attempt has come to. So the attempt had not ended when the request came in. -/
theorem failure_fresh {table : Table σ} {host : σ} (before later : List (Event σ)) {name : String}
    {f : Failure} (hname : (table.get? name).isSome) :
    let r := (start table host).run before
    let asked := r.next (.arrive name)
    let i := r.now.callers.length
    (asked.run later).now.callers[i]? = some ⟨name, .answered (.error f)⟩ →
    ∃ k, (∃ first, first <+: later ∧ (asked.run first).TakesPart i name k) ∧
      (∀ outcome, ⟨name, k, outcome⟩ ∈ (asked.run later).past ↔ outcome = .error f) ∧
      ¬r.Ended name k := by
  intro r asked i hanswer
  have hr : r.Sound := sound_run table host before
  have hasked : asked.Sound := hr.next _
  have htable : asked.now.cache.table = table := table_run (start table host) before
  have harriving : asked.now.callers[i]? = some ⟨name, .arriving⟩ := by
    simp [asked, i, next]
  obtain ⟨phase, hphase, hfollows⟩ := hasked.follows_run (htable ▸ hname) harriving later
  obtain rfl : phase = .answered (.error f) := by simpa [hanswer] using hphase.symm
  obtain ⟨k, hjoined, hmem⟩ := hfollows
  refine ⟨k, hjoined, fun outcome => ⟨fun h => ?_, ?_⟩, fun hended => ?_⟩
  · have hrun : (asked.run later).Sound := run_keeps (fun _ e hr => hr.next e) hasked later
    exact congrArg Attempt.outcome
      ((hrun.inOrder name).eq_of_number _ (mem_attempts.mpr h) _ hmem rfl)
  · rintro rfl
    exact mem_attempts.mp hmem
  · obtain ⟨first, -, hunderway, -⟩ := hjoined
    exact (hasked.ended_run (hr.ended_next hended _) first).2 hunderway

/-- A table of one name, whose resolver fails in two ways. -/
def worsening : Table Counts :=
  NameMap.empty.insert "x" (Script.symbol 0 [.failure "down", .failure "lost"])

/-- The first caller is answered by the first failure, and the second one begins another attempt. -/
def failedOnce : List (Event Counts) :=
  .arrive "x" :: List.replicate 6 (.step 0) ++ [.arrive "x", .step 1, .step 1]

/-- A third caller comes to wait for the second attempt, which fails. -/
def failedTwice : List (Event Counts) :=
  [.step 2, .step 2] ++ List.replicate 4 (.step 1) ++ [.step 2]

/-- The third caller is answered by the failure of the second attempt; the first one had ended when
it came, though the slot of the name has held its error. -/
theorem failure_fresh_failedTwice :
    let r := (start worsening []).run failedOnce
    let asked := r.next (.arrive "x")
    r.Ended "x" 1 ∧
      (asked.run failedTwice).now.callers[2]? =
        some ⟨"x", .answered (.error (.error (.resolver "x" "lost")))⟩ ∧
      ∃ k, (∃ first, first <+: failedTwice ∧ (asked.run first).TakesPart 2 "x" k) ∧ k ≠ 1 := by
  -- These are found by evaluation, which is slow where the course has a name.
  have hpast : ((start worsening []).run failedOnce).past =
      [⟨"x", 1, .error (.error (.resolver "x" "down"))⟩] := rfl
  have hslot : (((start worsening []).run failedOnce).now.cache.slot "x").state =
      .resolving 2 := rfl
  have hlength : ((start worsening []).run failedOnce).now.callers.length = 2 := rfl
  have hanswer : ((((start worsening []).run failedOnce).next (.arrive "x")).run
      failedTwice).now.callers[2]? =
        some ⟨"x", .answered (.error (.error (.resolver "x" "lost")))⟩ := rfl
  have hended : ((start worsening []).run failedOnce).Ended "x" 1 := by
    rw [Ended, hpast, hslot]
    exact ⟨⟨_, List.mem_singleton_self _⟩, by decide⟩
  have hfresh := @failure_fresh Counts worsening [] failedOnce failedTwice "x"
    (.error (.resolver "x" "lost")) rfl
  simp only [hlength] at hfresh
  obtain ⟨k, hjoined, -, hopen⟩ := hfresh hanswer
  refine ⟨hended, hanswer, k, hjoined, ?_⟩
  rintro rfl
  exact hopen hended

end Course

end FilterLang
