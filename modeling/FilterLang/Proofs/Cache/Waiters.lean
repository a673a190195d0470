import FilterLang.Proofs.Cache.Attempts
import FilterLang.Script

/-! What those who waited for an attempt come to. Woken, they look at the slot again, and what they
find there is what the last attempt has left: if nobody has begun another one, that is the outcome
they waited for. A request that comes in after a failure is published and before they look again
does begin another one. So a waiter shares a value always, and a failure only when nobody comes in
between; in any case it gets the outcome of its attempt or of a later one. -/

namespace FilterLang

variable {σ : Type}

namespace Attempt

theorem InOrder.number_le {attempts : List Attempt} (h : InOrder attempts) :
    ∀ a ∈ attempts, a.number ≤ attempts.length := by
  induction attempts with
  | nil =>
    intro a ha
    cases ha
  | cons a earlier ih =>
    intro b hb
    rcases List.mem_cons.mp hb with rfl | hb
    · exact Nat.le_of_eq h.1
    · exact Nat.le_succ_of_le (ih h.2.2 b hb)

/-- The number tells which attempt it is. -/
theorem InOrder.eq_of_number {attempts : List Attempt} (h : InOrder attempts) :
    ∀ a ∈ attempts, ∀ b ∈ attempts, a.number = b.number → a = b := by
  induction attempts with
  | nil =>
    intro a ha
    cases ha
  | cons c earlier ih =>
    have hlt : ∀ b ∈ earlier, b.number < c.number := fun b hb =>
      h.1 ▸ Nat.lt_succ_of_le (h.2.2.number_le b hb)
    intro a ha b hb heq
    rcases List.mem_cons.mp ha with hac | ha <;> rcases List.mem_cons.mp hb with hbc | hb
    · rw [hac, hbc]
    · exact absurd (hac ▸ heq.symm) (Nat.ne_of_lt (hlt b hb))
    · exact absurd (hbc ▸ heq) (Nat.ne_of_lt (hlt a ha))
    · exact ih h.2.2 a ha b hb heq

/-- No attempt comes after a value. -/
theorem InOrder.number_eq_length {attempts : List Attempt} (h : InOrder attempts) {a : Attempt}
    (ha : a ∈ attempts) {v : Value} (hv : a.outcome = .ok v) : a.number = attempts.length := by
  cases attempts with
  | nil => cases ha
  | cons b earlier =>
    rcases List.mem_cons.mp ha with rfl | ha
    · exact h.1
    · exact absurd hv (h.2.1 a ha v)

end Attempt

/-- Who looks at a settled slot and gets an answer gets the outcome of the last attempt. -/
theorem Slot.exists_of_look_after {attempts : List Attempt} {waited : Option Nat}
    {result : Except EvalError Value} (h : (after attempts).look waited = .answer result) :
    ∃ a ∈ attempts, a.outcome = result.mapError .error ∧ a.number = (after attempts).attempts := by
  cases attempts with
  | nil => cases h
  | cons a earlier =>
    refine ⟨a, List.mem_cons_self, ?_, rfl⟩
    obtain ⟨name, k, outcome⟩ := a
    simp only [look, after] at h
    rcases outcome with (e | _) | v
    · simp only [SlotState.settled] at h
      split at h <;> cases h
      rfl
    · cases h
    · cases h
      rfl

/-- What the phase of a caller can be after it waited for an attempt: it waits, holds a later
attempt, or has the outcome of that attempt or of a later one. -/
def Phase.HasAwaited (name : String) (slot : Slot) (attempts : List Attempt) (k : Nat) :
    Phase → Prop
  | .arriving => False
  | .looking none => False
  | .looking (some l) => k ≤ l ∧ l ≤ slot.attempts
  | .asleep l => k ≤ l ∧ l ≤ slot.attempts
  | .resolving l => k < l
  | .recording l outcome => k < l ∧ ⟨name, l, outcome⟩ ∈ attempts
  | .publishing l outcome => k < l ∧ ⟨name, l, outcome⟩ ∈ attempts
  | .waking outcome => ∃ l, k < l ∧ ⟨name, l, outcome⟩ ∈ attempts
  | .answered result => ∃ l, k ≤ l ∧ ⟨name, l, result⟩ ∈ attempts

theorem Phase.HasAwaited.mono {name : String} {slot slot' : Slot}
    {attempts attempts' : List Attempt} {k : Nat} {phase : Phase}
    (h : phase.HasAwaited name slot attempts k)
    (hslot : slot.attempts ≤ slot'.attempts) (hattempts : attempts ⊆ attempts') :
    phase.HasAwaited name slot' attempts' k := by
  cases phase with
  | arriving => exact h
  | looking waited =>
    cases waited with
    | none => exact h
    | some l => exact ⟨h.1, Nat.le_trans h.2 hslot⟩
  | asleep l => exact ⟨h.1, Nat.le_trans h.2 hslot⟩
  | resolving l => exact h
  | recording l outcome => exact ⟨h.1, hattempts h.2⟩
  | publishing l outcome => exact ⟨h.1, hattempts h.2⟩
  | waking outcome =>
    obtain ⟨l, hl, hmem⟩ := h
    exact ⟨l, hl, hattempts hmem⟩
  | answered result =>
    obtain ⟨l, hl, hmem⟩ := h
    exact ⟨l, hl, hattempts hmem⟩

theorem Phase.HasAwaited.wake {name : String} {slot : Slot} {attempts : List Attempt} {k : Nat}
    {phase : Phase} (h : phase.HasAwaited name slot attempts k) (waking : String) :
    ∃ phase', (Caller.mk name phase).wake waking = ⟨name, phase'⟩ ∧
      phase'.HasAwaited name slot attempts k := by
  unfold Caller.wake
  split
  · cases phase with
    | asleep l => exact ⟨_, rfl, h⟩
    | _ => exact ⟨_, rfl, h⟩
  · exact ⟨_, rfl, h⟩

namespace Course

/-- The caller with a number asks for the name and has waited for an attempt. -/
def HasAwaited (r : Course σ) (i : Nat) (name : String) (k : Nat) : Prop :=
  ∃ phase, r.now.callers[i]? = some ⟨name, phase⟩ ∧
    phase.HasAwaited name (r.now.cache.slot name) (r.attempts name) k

/-- The number of attempts begun never falls. -/
theorem attempts_le_step {s t : Callers σ} {i : Nat} {name : String} {phase : Phase}
    (h : s.Moves i name phase t) (hi : s.callers[i]? = some ⟨name, phase⟩) (other : String) :
    (s.cache.slot other).attempts ≤ (t.cache.slot other).attempts := by
  by_cases hne : other = name
  · subst hne
    cases h with
    | enter => simp [Callers.move]
    | begin hlook =>
      simp only [Callers.move, Cache.slot_begin, ↓reduceIte]
      exact (Slot.look_eq_begin hlook).1 ▸ Nat.le_succ _
    | record => simp [Callers.move]
    | publish => simp [Callers.move]
    | _ => exact Nat.le_refl _
  · exact Nat.le_of_eq (congrArg Slot.attempts (h.elsewhere hi hne).2.1.symm)

theorem attempts_subset_step (r : Course σ) (t : Callers σ) (i : Nat) (name : String) :
    r.attempts name ⊆ attempts ⟨t, t.concluded i ++ r.past⟩ name := by
  unfold attempts
  rw [List.filter_append]
  exact List.subset_append_right _ _

theorem name_of_mem_attempts {r : Course σ} {name : String} {a : Attempt}
    (ha : a ∈ r.attempts name) : a.name = name :=
  of_decide_eq_true (List.mem_filter.mp ha).2

/-- The step of a caller who has waited. -/
theorem Sound.hasAwaited_own {r : Course σ} {t : Callers σ} {i k : Nat} {name : String}
    {phase : Phase} (hr : r.Sound) (h : r.now.Moves i name phase t)
    (hi : r.now.callers[i]? = some ⟨name, phase⟩)
    (hawaited : phase.HasAwaited name (r.now.cache.slot name) (r.attempts name) k) :
    HasAwaited ⟨t, t.concluded i ++ r.past⟩ i name k := by
  have hstage := hr.stage name
  have hsubset := attempts_subset_step r t i name
  have hlater := hawaited.mono (attempts_le_step h hi name) hsubset
  have hconcluded := h.concluded_eq hi
  cases h with
  | refuse => exact hawaited.elim
  | enter => exact hawaited.elim
  | @answer waited result hlook =>
    obtain ⟨-, hafter, -⟩ := hstage.of_not_resolving (Slot.ne_resolving_of_answer hlook)
    obtain ⟨a, ha, houtcome, hnumber⟩ := Slot.exists_of_look_after (hafter ▸ hlook)
    have hmem : ⟨name, a.number, result.mapError .error⟩ ∈ r.attempts name := by
      obtain ⟨other, l, outcome⟩ := a
      obtain rfl : other = name := name_of_mem_attempts ha
      exact houtcome ▸ ha
    refine ⟨_, Callers.getElem?_move_self hi _, a.number, ?_, hsubset hmem⟩
    cases waited with
    | none => exact hawaited.elim
    | some l =>
      rw [hnumber, ← hafter]
      exact Nat.le_trans hawaited.1 hawaited.2
  | @wait waited m hlook =>
    refine ⟨_, Callers.getElem?_move_self hi _, ?_⟩
    have hslot : r.now.cache.slot name = ⟨m, .resolving m⟩ :=
      hstage.slot_eq (Slot.look_eq_wait hlook)
    cases waited with
    | none => exact hawaited.elim
    | some l =>
      rw [hslot] at hawaited
      exact ⟨Nat.le_trans hawaited.1 hawaited.2, hslot ▸ Nat.le_refl m⟩
  | @begin waited m hlook =>
    refine ⟨_, Callers.getElem?_move_self hi _, ?_⟩
    cases waited with
    | none => exact hawaited.elim
    | some l =>
      rw [(Slot.look_eq_begin hlook).1]
      exact Nat.lt_succ_of_le (Nat.le_trans hawaited.1 hawaited.2)
  | @conclude m symbol hsymbol =>
    refine ⟨_, Callers.getElem?_move_self hi _, hawaited, ?_⟩
    rw [hsymbol] at hconcluded
    rw [hconcluded]
    simp [attempts]
  | lose hnone =>
    have hsome := hr.fits i _ hi
    simp [Caller.Fits, hnone] at hsome
  | record => exact ⟨_, Callers.getElem?_move_self hi _, hlater⟩
  | @publish m outcome => exact ⟨_, Callers.getElem?_move_self hi _, m, hlater⟩
  | wake =>
    obtain ⟨l, hl, hmem⟩ := hlater
    exact ⟨_, Callers.getElem?_move_self (Callers.getElem?_wake hi (by simp) name) _,
      l, Nat.le_of_lt hl, hmem⟩

/-- Whatever happens, who has waited for an attempt stays one who has. -/
theorem Sound.hasAwaited_next {r : Course σ} (hr : r.Sound) {i k : Nat} {name : String}
    (h : r.HasAwaited i name k) (e : Event σ) : (r.next e).HasAwaited i name k := by
  obtain ⟨phase, hi, hawaited⟩ := h
  cases e with
  | arrive other =>
    exact ⟨phase, getElem?_arrive hi other, hawaited⟩
  | host state => exact ⟨phase, hi, hawaited⟩
  | step j =>
    rcases r.next_step_cases j with hsame | ⟨other, old, t, hj, hmoves, hnext⟩
    · rw [hsame]
      exact ⟨phase, hi, hawaited⟩
    · rw [hnext]
      by_cases hij : i = j
      · subst hij
        obtain ⟨rfl, rfl⟩ : name = other ∧ phase = old := by simpa [hi] using hj
        exact hr.hasAwaited_own hmoves hi hawaited
      · have hlater := hawaited.mono (attempts_le_step hmoves hj name)
          (attempts_subset_step r t j name)
        rcases hmoves.getElem?_of_ne hij with hsame | hwoken
        · exact ⟨phase, hsame.trans hi, hlater⟩
        · obtain ⟨phase', hwake, hlater⟩ := hlater.wake other
          exact ⟨phase', by rw [hwoken, hi, Option.map_some, hwake], hlater⟩

theorem Sound.hasAwaited_run {r : Course σ} (hr : r.Sound) {i k : Nat} {name : String}
    (h : r.HasAwaited i name k) (later : List (Event σ)) : (r.run later).HasAwaited i name k :=
  (run_keeps (P := fun r => r.Sound ∧ r.HasAwaited i name k)
    (fun _ e hr => ⟨hr.1.next e, hr.1.hasAwaited_next hr.2 e⟩) ⟨hr, h⟩ later).2

theorem mem_attempts {r : Course σ} {name : String} {k : Nat} {outcome : Except Failure Value} :
    ⟨name, k, outcome⟩ ∈ r.attempts name ↔ ⟨name, k, outcome⟩ ∈ r.past := by
  simp [attempts]

/-- As many attempts have begun as have come to their outcomes, or one more. -/
theorem StageOf.length_attempts_le {r : Course σ} {name : String} (h : r.StageOf name)
    (horder : Attempt.InOrder (r.attempts name)) :
    (r.attempts name).length ≤ (r.now.cache.slot name).attempts := by
  unfold StageOf at h
  generalize r.attempts name = attempts at h horder ⊢
  cases h with
  | idle _ hafter => exact Nat.le_of_eq (hafter ▸ (Slot.attempts_after horder).symm)
  | begun i _ hslot => exact hslot ▸ Nat.le_succ _
  | concluded i _ _ hslot => exact Nat.le_of_eq (hslot ▸ rfl)
  | noted i _ _ hslot => exact Nat.le_of_eq (hslot ▸ rfl)

/-- After an attempt with a value no other one begins. -/
theorem Sound.attempts_eq_of_ok {r : Course σ} (hr : r.Sound) {name : String} {k : Nat} {v : Value}
    (h : ⟨name, k, .ok v⟩ ∈ r.past) : (r.now.cache.slot name).attempts = k := by
  have hstage := hr.stage name
  have horder := hr.inOrder name
  have hmem : ⟨name, k, .ok v⟩ ∈ r.attempts name := mem_attempts.mpr h
  have hk : k = (r.attempts name).length := horder.number_eq_length hmem rfl
  unfold StageOf at hstage
  generalize r.attempts name = attempts at hstage horder hmem hk
  cases hstage with
  | idle _ hafter => rw [hafter, Slot.attempts_after horder, hk]
  | begun i _ _ _ hvalues => exact absurd rfl (hvalues _ hmem v)
  | concluded i _ _ hslot => rw [hslot, hk, List.length_cons]
  | noted i _ _ hslot => rw [hslot, hk, List.length_cons]

/-- What a caller comes to who has waited while an attempt was under way. After a value no other
attempt begins. As long as no other attempt has begun, the caller does not hold one, and an answer
is the outcome it waited for. In any case an answer is the outcome of that attempt or of a later
one. -/
theorem waiter_answer {table : Table σ} {host : σ} (events later : List (Event σ)) {i k : Nat}
    {name : String} {outcome : Except Failure Value}
    (hwaits : ((start table host).run events).now.callers[i]? = some ⟨name, .asleep k⟩)
    (hunderway : (((start table host).run events).now.cache.slot name).state = .resolving k)
    (hended : ⟨name, k, outcome⟩ ∈ (((start table host).run events).run later).past) :
    let r := ((start table host).run events).run later
    (∀ v, outcome = .ok v → (r.now.cache.slot name).attempts = k) ∧
    ((r.now.cache.slot name).attempts = k → ∀ phase, r.now.callers[i]? = some ⟨name, phase⟩ →
      phase.attempt? = none ∧ ∀ x, phase = .answered x → x = outcome) ∧
    ∀ x, r.now.callers[i]? = some ⟨name, .answered x⟩ → ∃ l, k ≤ l ∧ ⟨name, l, x⟩ ∈ r.past := by
  intro r
  have hbefore := sound_run table host events
  have hr : r.Sound := run_keeps (fun _ e hr => hr.next e) hbefore later
  have hslot := (hbefore.stage name).slot_eq hunderway
  have hawaited : r.HasAwaited i name k :=
    hbefore.hasAwaited_run ⟨_, hwaits, Nat.le_refl k, hslot ▸ Nat.le_refl k⟩ later
  have hanswer : ∀ x, r.now.callers[i]? = some ⟨name, .answered x⟩ →
      ∃ l, k ≤ l ∧ ⟨name, l, x⟩ ∈ r.past := by
    intro x hx
    obtain ⟨phase, hi, hphase⟩ := hawaited
    obtain rfl : phase = .answered x := by simpa [hi] using hx
    obtain ⟨l, hl, hmem⟩ := hphase
    exact ⟨l, hl, mem_attempts.mp hmem⟩
  refine ⟨fun v hv => hr.attempts_eq_of_ok (hv ▸ hended), fun hlast phase hi => ⟨?_, ?_⟩, hanswer⟩
  · obtain ⟨phase', hi', hphase⟩ := hawaited
    obtain rfl : phase' = phase := by simpa [hi'] using hi
    -- An attempt of its own would be a later one than the last.
    have hlate : ∀ l, k < l → phase'.attempt? ≠ some l := by
      intro l hl hattempt
      obtain ⟨m, hm, hslot, -⟩ := (hr.stage name).of_holds ⟨hi, hattempt ▸ rfl⟩
      rw [hslot] at hlast
      exact Nat.ne_of_gt hl (Option.some.inj (hattempt.symm.trans hm) ▸ hlast)
    cases phase' with
    | resolving l => exact absurd rfl (hlate l hphase)
    | recording l o => exact absurd rfl (hlate l hphase.1)
    | publishing l o => exact absurd rfl (hlate l hphase.1)
    | _ => rfl
  · rintro x rfl
    obtain ⟨l, hkl, hmem⟩ := hanswer x hi
    have horder := hr.inOrder name
    have hmem := mem_attempts.mpr hmem
    have hlk : l = k := by
      refine Nat.le_antisymm ?_ hkl
      calc l ≤ (r.attempts name).length := horder.number_le _ hmem
        _ ≤ (r.now.cache.slot name).attempts := (hr.stage name).length_attempts_le horder
        _ = k := hlast
    exact congrArg Attempt.outcome (horder.eq_of_number _ hmem _ (mem_attempts.mpr hended) hlk)

/-- A table of one name, whose resolver fails at the first call and then gives a value. -/
def flaky : Table Counts :=
  NameMap.empty.insert "x" (Script.symbol 0 [.failure "down", .value (.integer 1)])

/-- The first caller begins an attempt, and the second one waits for it. -/
def oneWaits : List (Event Counts) :=
  [.arrive "x", .step 0, .step 0, .arrive "x", .step 1, .step 1]

/-- The attempt fails, and the waiter is woken and looks before anyone else comes. -/
def failureShared : List (Event Counts) := [.step 0, .step 0, .step 0, .step 0, .step 1]

/-- At that time nobody has begun another attempt, so the waiter shares the failure. -/
theorem waiter_answer_failureShared :
    let r := ((start flaky []).run oneWaits).run failureShared
    r.now.callers[1]? = some ⟨"x", .answered (.error (.error (.resolver "x" "down")))⟩ ∧
    ∀ x, r.now.callers[1]? = some ⟨"x", .answered x⟩ →
      x = .error (.error (.resolver "x" "down")) := by
  refine ⟨rfl, fun x hx => ?_⟩
  have hanswer := @waiter_answer Counts flaky [] oneWaits failureShared 1 1 "x" _ rfl rfl (.head _)
  exact (hanswer.2.1 rfl _ hx).2 x rfl

/-- Everyone who has waited while an attempt was under way that ends with a value or an error is
answered by that outcome, and holds no attempt afterwards. -/
def WaitersShareOutcome (table : Table σ) (host : σ) : Prop :=
  ∀ (events later : List (Event σ)) (i k : Nat) (name : String) (outcome : Except Failure Value),
    let r := (start table host).run events
    let r' := r.run later
    r.now.callers[i]? = some ⟨name, .asleep k⟩ → (r.now.cache.slot name).state = .resolving k →
    ⟨name, k, outcome⟩ ∈ r'.past → outcome ≠ .error .crash →
    ∀ phase, r'.now.callers[i]? = some ⟨name, phase⟩ →
      phase.attempt? = none ∧ ∀ x, phase = .answered x → x = outcome

/-- The attempt fails, and before those who wait are woken, a third caller begins another one, for
which the second caller then waits. -/
def waiterOvertaken : List (Event Counts) :=
  [.step 0, .step 0, .step 0, .arrive "x", .step 2, .step 2, .step 0, .step 1,
    .step 2, .step 2, .step 2, .step 2, .step 1]

/-- The second caller has waited for the failure and is answered by the value. -/
theorem not_waitersShareOutcome : ¬WaitersShareOutcome flaky [] := by
  intro h
  have hshared := h oneWaits waiterOvertaken 1 1 "x" (.error (.error (.resolver "x" "down")))
    rfl rfl (.tail _ (.head _)) nofun (.answered (.ok (.integer 1))) rfl
  exact nomatch hshared.2 _ rfl

end Course

end FilterLang
