import FilterLang.Cache.Callers

/-! Courses of a cache. Requests come in at any moment, the callers make their steps in any order,
and between the steps the host program may change its state. A course carries, beside the callers,
the attempts that have come to their outcomes, so that statements can speak of the whole past. -/

namespace FilterLang

variable {σ : Type}

/-- An attempt that has come to its outcome. -/
structure Attempt where
  name : String
  number : Nat
  outcome : Except Failure Value

/-- What may happen next to a cache and those who ask it. -/
inductive Event (σ : Type) where
  /-- A request for a name comes in. -/
  | arrive (name : String)
  /-- A caller makes its next step, if it has one. -/
  | step (caller : Nat)
  /-- The host program changes its state. -/
  | host (state : σ)

/-- The attempt that a caller has begun and not settled. -/
def Phase.attempt? : Phase → Option Nat
  | .resolving k => some k
  | .recording k _ => some k
  | .publishing k _ => some k
  | _ => none

/-- What the records hold for a name. -/
def Cache.notes (c : Cache σ) (name : String) : Option Value × Option Unit :=
  (c.used.get? name, c.failed.get? name)

namespace Callers

/-- The caller with a number asks for the name, and holds an attempt that is not settled. -/
def Holds (s : Callers σ) (name : String) (i : Nat) (phase : Phase) : Prop :=
  s.callers[i]? = some ⟨name, phase⟩ ∧ phase.attempt?.isSome

/-- The attempt that a caller has brought to its outcome with its last step. -/
def concluded (s : Callers σ) (i : Nat) : List Attempt :=
  match s.callers[i]? with
  | some ⟨name, .recording k outcome⟩ => [⟨name, k, outcome⟩]
  | _ => []

/-- What a step can do, by the phase of the caller who makes it. -/
inductive Moves (s : Callers σ) (i : Nat) (name : String) : Phase → Callers σ → Prop where
  | refuse : s.cache.table.get? name = none →
      Moves s i name .arriving (s.move i (.answered (.error (.error (.unknownSymbol name)))))
  | enter : (s.cache.table.get? name).isSome →
      Moves s i name .arriving
        ({ s with cache := s.cache.setSlot name (s.cache.slot name) }.move i (.looking none))
  | answer {waited : Option Nat} {result : Except EvalError Value} :
      (s.cache.slot name).look waited = .answer result →
      Moves s i name (.looking waited) (s.move i (.answered (result.mapError .error)))
  | wait {waited : Option Nat} {k : Nat} : (s.cache.slot name).look waited = .wait k →
      Moves s i name (.looking waited) (s.move i (.asleep k))
  | begin {waited : Option Nat} {k : Nat} : (s.cache.slot name).look waited = .begin k →
      Moves s i name (.looking waited)
        ({ s with cache := s.cache.begin name k }.move i (.resolving k))
  | conclude {k : Nat} {symbol : Symbol σ} : s.cache.table.get? name = some symbol →
      Moves s i name (.resolving k)
        ({ s with world := (symbol.resolve name s.world).2 }.move i
          (.recording k (symbol.resolve name s.world).1))
  | lose {k : Nat} : s.cache.table.get? name = none →
      Moves s i name (.resolving k) (s.move i (.answered (.error (.error (.unknownSymbol name)))))
  | record {k : Nat} {outcome : Except Failure Value} :
      Moves s i name (.recording k outcome)
        ({ s with cache := s.cache.record name outcome }.move i (.publishing k outcome))
  | publish {k : Nat} {outcome : Except Failure Value} :
      Moves s i name (.publishing k outcome)
        ({ s with cache := s.cache.publish name k outcome }.move i (.waking outcome))
  | wake {outcome : Except Failure Value} :
      Moves s i name (.waking outcome)
        ({ s with callers := s.callers.map (Caller.wake name) }.move i (.answered outcome))

theorem moves_of_step? {s t : Callers σ} {i : Nat} (h : s.step? i = some t) :
    ∃ name phase, s.callers[i]? = some ⟨name, phase⟩ ∧ s.Moves i name phase t := by
  obtain ⟨⟨name, phase⟩, hi, h⟩ := Option.bind_eq_some_iff.mp h
  refine ⟨name, phase, hi, ?_⟩
  cases phase with
  | arriving =>
    simp only at h
    split at h
    next hnone => exact Option.some.inj h ▸ .refuse hnone
    next hsome => exact Option.some.inj h ▸ .enter (by rw [hsome]; rfl)
  | looking waited =>
    obtain rfl := Option.some.inj h
    unfold Callers.look
    split
    next hlook => exact .answer hlook
    next hlook => exact .wait hlook
    next hlook => exact .begin hlook
  | asleep k => cases h
  | resolving k =>
    obtain rfl := Option.some.inj h
    unfold Callers.resolve
    split
    next hnone => exact .lose hnone
    next hsome => exact .conclude hsome
  | recording k outcome => exact Option.some.inj h ▸ .record
  | publishing k outcome => exact Option.some.inj h ▸ .publish
  | waking outcome => exact Option.some.inj h ▸ .wake
  | answered result => cases h

theorem step?_of_moves {s t : Callers σ} {i : Nat} {name : String} {phase : Phase}
    (hi : s.callers[i]? = some ⟨name, phase⟩) (h : s.Moves i name phase t) :
    s.step? i = some t := by
  cases h with
  | refuse hnone => simp [step?, hi, hnone]
  | enter hsome =>
    obtain ⟨symbol, hsymbol⟩ := Option.isSome_iff_exists.mp hsome
    simp [step?, hi, hsymbol]
  | answer hlook => simp [step?, hi, look, hlook]
  | wait hlook => simp [step?, hi, look, hlook]
  | begin hlook => simp [step?, hi, look, hlook]
  | conclude hsymbol => simp [step?, hi, resolve, hsymbol]
  | lose hnone => simp [step?, hi, resolve, hnone]
  | record => simp [step?, hi]
  | publish => simp [step?, hi]
  | wake => simp [step?, hi]

section Move

variable {s : Callers σ} {i : Nat} {name : String} {old : Phase}

theorem getElem?_move (s : Callers σ) (i j : Nat) (phase : Phase) :
    (s.move i phase).callers[j]? =
      if i = j then s.callers[j]?.map fun c => { c with phase := phase } else s.callers[j]? := by
  rw [move, List.getElem?_modify]
  split <;> simp

theorem getElem?_move_self (hi : s.callers[i]? = some ⟨name, old⟩) (phase : Phase) :
    (s.move i phase).callers[i]? = some ⟨name, phase⟩ := by
  rw [getElem?_move, if_pos rfl, hi]
  rfl

theorem holds_move_self (hi : s.callers[i]? = some ⟨name, old⟩) {phase : Phase}
    {j : Nat} {q : Phase} :
    (s.move i phase).Holds name j q ↔
      if j = i then q = phase ∧ phase.attempt?.isSome else s.Holds name j q := by
  unfold Holds
  rw [getElem?_move]
  by_cases hj : j = i
  · subst hj
    simp only [↓reduceIte, hi, Option.map_some, Option.some.injEq, Caller.mk.injEq, true_and]
    constructor
    · rintro ⟨rfl, h⟩
      exact ⟨rfl, h⟩
    · rintro ⟨rfl, h⟩
      exact ⟨rfl, h⟩
  · rw [if_neg (Ne.symm hj), if_neg hj]

theorem holds_move_of_ne (hi : s.callers[i]? = some ⟨name, old⟩) {other : String}
    (hne : other ≠ name) (phase : Phase) : (s.move i phase).Holds other = s.Holds other := by
  funext j q
  unfold Holds
  rw [getElem?_move]
  by_cases hj : i = j
  · subst hj
    simp [hi, Ne.symm hne]
  · rw [if_neg hj]

/-- A caller who holds nothing before and after a move changes nothing about who holds what. -/
theorem holds_move_of_free (hi : s.callers[i]? = some ⟨name, old⟩) (hold : old.attempt? = none)
    {phase : Phase} (hphase : phase.attempt? = none) (other : String) :
    (s.move i phase).Holds other = s.Holds other := by
  by_cases hne : other = name
  · subst hne
    funext j q
    refine propext ((holds_move_self hi).trans ?_)
    split
    next h =>
      subst h
      refine ⟨fun h => ?_, fun h => ?_⟩
      · simp [hphase] at h
      · obtain ⟨hj, hq⟩ := h
        rw [hi] at hj
        cases hj
        simp [hold] at hq
    next => rfl
  · exact holds_move_of_ne hi hne phase

theorem attempt?_wake (name : String) (c : Caller) :
    (c.wake name).phase.attempt? = c.phase.attempt? := by
  unfold Caller.wake
  split
  · split
    next h => simp [h, Phase.attempt?]
    next => rfl
  · rfl

theorem wake_of_attempt? {c : Caller} (h : c.phase.attempt?.isSome) (name : String) :
    c.wake name = c := by
  unfold Caller.wake
  split
  · split
    next hphase => simp [hphase, Phase.attempt?] at h
    next => rfl
  · rfl

theorem getElem?_wake {s : Callers σ} {i : Nat} {name : String} {phase : Phase}
    (hi : s.callers[i]? = some ⟨name, phase⟩) (hphase : ∀ k, phase ≠ .asleep k) (waking : String) :
    (s.callers.map (Caller.wake waking))[i]? = some ⟨name, phase⟩ := by
  rw [List.getElem?_map, hi, Option.map_some, Caller.wake]
  cases phase <;> simp_all

/-- Those who hold an attempt are awake. -/
theorem holds_wake (s : Callers σ) (name other : String) :
    { s with callers := s.callers.map (Caller.wake name) }.Holds other = s.Holds other := by
  funext j q
  refine propext ?_
  unfold Holds
  simp only [List.getElem?_map, Option.map_eq_some_iff]
  constructor
  · rintro ⟨⟨c, hc, hwake⟩, hq⟩
    have hattempt : c.phase.attempt?.isSome := by
      rw [← attempt?_wake name c, hwake]
      exact hq
    rw [wake_of_attempt? hattempt] at hwake
    exact ⟨hwake ▸ hc, hq⟩
  · rintro ⟨hc, hq⟩
    exact ⟨⟨_, hc, wake_of_attempt? hq name⟩, hq⟩

end Move

/-- What a step leaves as it was for the names that its caller does not ask for. -/
theorem Moves.elsewhere {s t : Callers σ} {i : Nat} {name other : String} {phase : Phase}
    (h : s.Moves i name phase t) (hi : s.callers[i]? = some ⟨name, phase⟩) (hne : other ≠ name) :
    t.Holds other = s.Holds other ∧ t.cache.slot other = s.cache.slot other ∧
      t.cache.notes other = s.cache.notes other := by
  cases h with
  | refuse => exact ⟨holds_move_of_ne hi hne _, rfl, rfl⟩
  | enter => exact ⟨holds_move_of_ne hi hne _, by simp [move, hne], rfl⟩
  | answer => exact ⟨holds_move_of_ne hi hne _, rfl, rfl⟩
  | wait => exact ⟨holds_move_of_ne hi hne _, rfl, rfl⟩
  | begin => exact ⟨holds_move_of_ne hi hne _, by simp [move, hne], rfl⟩
  | conclude => exact ⟨holds_move_of_ne hi hne _, rfl, rfl⟩
  | lose => exact ⟨holds_move_of_ne hi hne _, rfl, rfl⟩
  | @record k outcome =>
    refine ⟨holds_move_of_ne hi hne _, by simp [move], ?_⟩
    simp only [move, Cache.record, Cache.notes]
    split <;> simp [hne]
  | publish => exact ⟨holds_move_of_ne hi hne _, by simp [move, hne], rfl⟩
  | wake =>
    refine ⟨?_, rfl, rfl⟩
    rw [← s.holds_wake name other]
    exact holds_move_of_ne (getElem?_wake hi (by simp) name) hne _

theorem concluded_move {s : Callers σ} {i : Nat} {name : String} {old : Phase}
    (hi : s.callers[i]? = some ⟨name, old⟩) (phase : Phase) :
    (s.move i phase).concluded i =
      match phase with
      | .recording k outcome => [⟨name, k, outcome⟩]
      | _ => [] := by
  unfold concluded
  rw [getElem?_move_self hi]
  cases phase <;> rfl

/-- An attempt is concluded by the step that runs the resolver. -/
theorem Moves.concluded_eq {s t : Callers σ} {i : Nat} {name : String} {phase : Phase}
    (h : s.Moves i name phase t) (hi : s.callers[i]? = some ⟨name, phase⟩) :
    t.concluded i =
      match phase, s.cache.table.get? name with
      | .resolving k, some symbol => [⟨name, k, (symbol.resolve name s.world).1⟩]
      | _, _ => [] := by
  cases h with
  | conclude hsymbol => rw [hsymbol]; exact concluded_move hi _
  | lose hnone => rw [hnone]; exact concluded_move hi _
  | wake => exact concluded_move (getElem?_wake hi (by simp) name) _
  | _ => exact concluded_move hi _

/-- A step leaves the other callers alone, or wakes those who wait for its name. -/
theorem Moves.getElem?_of_ne {s t : Callers σ} {i j : Nat} {name : String} {phase : Phase}
    (h : s.Moves i name phase t) (hne : j ≠ i) :
    t.callers[j]? = s.callers[j]? ∨ t.callers[j]? = s.callers[j]?.map (Caller.wake name) := by
  cases h with
  | wake => exact .inr (by rw [getElem?_move, if_neg (Ne.symm hne), List.getElem?_map])
  | _ => exact .inl (by rw [getElem?_move, if_neg (Ne.symm hne)])

theorem Moves.table_eq {s t : Callers σ} {i : Nat} {name : String} {phase : Phase}
    (h : s.Moves i name phase t) : t.cache.table = s.cache.table := by
  cases h with
  | record => exact Cache.table_record _ _ _
  | _ => rfl

/-- The name of a caller does not change. -/
theorem Moves.exists_phase {s t : Callers σ} {i : Nat} {name : String} {phase : Phase}
    (h : s.Moves i name phase t) (hi : s.callers[i]? = some ⟨name, phase⟩) :
    ∃ p, t.callers[i]? = some ⟨name, p⟩ := by
  cases h with
  | wake => exact ⟨_, getElem?_move_self (getElem?_wake hi (by simp) name) _⟩
  | _ => exact ⟨_, getElem?_move_self hi _⟩

end Callers

/-- A cache with its callers, and the attempts that have come to their outcomes, the last one
first. -/
structure Course (σ : Type) where
  now : Callers σ
  past : List Attempt

namespace Course

/-- A fresh cache over a table, before the first request. -/
def start (table : Table σ) (host : σ) : Course σ := ⟨⟨.new table, ⟨host, []⟩, []⟩, []⟩

/-- What an event makes of a course. A caller who has no next step leaves it as it is. -/
def next (r : Course σ) : Event σ → Course σ
  | .arrive name => { r with now := { r.now with callers := r.now.callers ++ [⟨name, .arriving⟩] } }
  | .step i =>
    match r.now.step? i with
    | none => r
    | some s => ⟨s, s.concluded i ++ r.past⟩
  | .host state => { r with now := { r.now with world := { r.now.world with host := state } } }

/-- The course after a number of events. -/
def run (r : Course σ) (events : List (Event σ)) : Course σ := events.foldl next r

/-- The attempts on a name that have come to their outcomes, the last one first. -/
def attempts (r : Course σ) (name : String) : List Attempt := r.past.filter fun a => a.name = name

@[simp] theorem run_nil (r : Course σ) : r.run [] = r := rfl

@[simp] theorem run_cons (r : Course σ) (e : Event σ) (events : List (Event σ)) :
    r.run (e :: events) = (r.next e).run events := rfl

theorem run_append (r : Course σ) (events later : List (Event σ)) :
    r.run (events ++ later) = (r.run events).run later :=
  List.foldl_append

/-- A request that comes in leaves the callers who are there in their places. -/
theorem getElem?_arrive {r : Course σ} {i : Nat} {c : Caller} (hi : r.now.callers[i]? = some c)
    (name : String) : (r.next (.arrive name)).now.callers[i]? = some c :=
  List.getElem?_append_left (List.getElem?_eq_some_iff.mp hi).1 ▸ hi

/-- After a request has come in, a caller is its one or was there before. -/
theorem eq_or_getElem?_of_arrive {r : Course σ} {i : Nat} {c : Caller} {name : String}
    (h : (r.next (.arrive name)).now.callers[i]? = some c) :
    c = ⟨name, .arriving⟩ ∨ r.now.callers[i]? = some c := by
  rw [next, List.getElem?_append] at h
  split at h
  · exact .inr h
  · rw [List.getElem?_singleton] at h
    split at h <;> cases h
    exact .inl rfl

/-- What every event keeps, a course keeps. -/
theorem run_keeps {P : Course σ → Prop} (h : ∀ r e, P r → P (r.next e)) {r : Course σ} (hr : P r)
    (events : List (Event σ)) : P (r.run events) := by
  induction events generalizing r with
  | nil => exact hr
  | cons e events ih => exact ih (h r e hr)

/-- A step either does not take place or is one of the moves of its caller. -/
theorem next_step_cases (r : Course σ) (i : Nat) :
    r.next (.step i) = r ∨ ∃ name phase t, r.now.callers[i]? = some ⟨name, phase⟩ ∧
      r.now.Moves i name phase t ∧ r.next (.step i) = ⟨t, t.concluded i ++ r.past⟩ := by
  rw [next]
  split
  next => exact .inl rfl
  next t ht =>
    obtain ⟨name, phase, hi, hmoves⟩ := Callers.moves_of_step? ht
    exact .inr ⟨name, phase, t, hi, hmoves, rfl⟩

/-- A step concludes attempts on the name of its caller only. -/
theorem attempts_elsewhere {r : Course σ} {t : Callers σ} {i : Nat} {name other : String}
    {phase : Phase} (h : r.now.Moves i name phase t)
    (hi : r.now.callers[i]? = some ⟨name, phase⟩) (hne : other ≠ name) :
    attempts ⟨t, t.concluded i ++ r.past⟩ other = r.attempts other := by
  obtain ⟨p, hp⟩ := h.exists_phase hi
  have hconcluded : (t.concluded i).filter (fun a => a.name = other) = [] := by
    unfold Callers.concluded
    rw [hp]
    cases p <;> simp [Ne.symm hne]
  rw [attempts, List.filter_append, hconcluded]
  rfl

end Course

end FilterLang
