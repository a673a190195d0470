import FilterLang.Proofs.Cache.Course

/-! Attempts under any order of steps. The attempts on a name follow each other: there is at most
one at a time, they are numbered from one, and none begins after a value. At every moment the slot
and the records of a name are those that its attempts leave, as far as the last one has come. -/

namespace FilterLang

variable {σ : Type}

namespace Attempt

/-- Attempts on a name as they can follow each other, the last one first: they are numbered from
one, and only the last one may have come to a value. -/
def InOrder : List Attempt → Prop
  | [] => True
  | a :: earlier =>
    a.number = earlier.length + 1 ∧ (∀ b ∈ earlier, ∀ v, b.outcome ≠ .ok v) ∧ InOrder earlier

/-- What the records hold for a name after an outcome. -/
def note : Except Failure Value → Option Value × Option Unit → Option Value × Option Unit
  | .ok v, _ => (some v, none)
  | .error (.error _), (value, _) => (value, some ())
  | .error .crash, before => before

/-- What the records hold for a name after the attempts on it. -/
def notes : List Attempt → Option Value × Option Unit
  | [] => (none, none)
  | a :: earlier => note a.outcome (notes earlier)

/-- The values that attempts have come to. -/
def values (attempts : List Attempt) : List Value := attempts.filterMap (·.outcome.toOption)

theorem values_eq_nil_iff {attempts : List Attempt} :
    values attempts = [] ↔ ∀ a ∈ attempts, ∀ v, a.outcome ≠ .ok v := by
  rw [values, List.filterMap_eq_nil_iff]
  refine forall_congr' fun a => imp_congr_right fun _ => ?_
  cases a.outcome <;> simp [Except.toOption]

/-- At most one attempt comes to a value. -/
theorem InOrder.length_values_le {attempts : List Attempt} (h : InOrder attempts) :
    (values attempts).length ≤ 1 := by
  cases attempts with
  | nil => exact Nat.zero_le 1
  | cons a earlier =>
    have hearlier : values earlier = [] := values_eq_nil_iff.mpr h.2.1
    rw [values] at hearlier ⊢
    rw [List.filterMap_cons, hearlier]
    split <;> simp

end Attempt

theorem Cache.notes_record (c : Cache σ) (name other : String) (outcome : Except Failure Value) :
    (c.record name outcome).notes other =
      if other = name then Attempt.note outcome (c.notes name) else c.notes other := by
  unfold Cache.record Cache.notes Attempt.note
  split <;> split <;> simp_all

/-- A caller who begins an attempt has found a slot with no attempt under way and no value. -/
theorem Slot.look_eq_begin {s : Slot} {waited : Option Nat} {k : Nat}
    (h : s.look waited = .begin k) :
    k = s.attempts + 1 ∧ (∀ l, s.state ≠ .resolving l) ∧ ∀ v, s.state ≠ .resolved v := by
  obtain ⟨attempts, state⟩ := s
  cases state with
  | vacant => exact ⟨(Look.begin.inj h).symm, nofun, nofun⟩
  | resolving l => cases h
  | resolved v => cases h
  | failed l e =>
    simp only [look] at h
    split at h
    · cases h
    · exact ⟨(Look.begin.inj h).symm, nofun, nofun⟩

theorem Slot.look_eq_answer_ok {s : Slot} {waited : Option Nat} {v : Value}
    (h : s.look waited = .answer (.ok v)) : s.state = .resolved v := by
  obtain ⟨attempts, state⟩ := s
  cases state with
  | vacant => cases h
  | resolving l => cases h
  | resolved w => cases h; rfl
  | failed l e =>
    simp only [look] at h
    split at h <;> cases h

theorem Slot.ne_resolving_of_answer {s : Slot} {waited : Option Nat}
    {result : Except EvalError Value} (h : s.look waited = .answer result) (k : Nat) :
    s.state ≠ .resolving k := by
  obtain ⟨attempts, state⟩ := s
  rintro rfl
  cases h

theorem Slot.look_eq_wait {s : Slot} {waited : Option Nat} {k : Nat}
    (h : s.look waited = .wait k) : s.state = .resolving k := by
  obtain ⟨attempts, state⟩ := s
  cases state with
  | vacant => cases h
  | resolving l => exact congrArg _ (Look.wait.inj h)
  | resolved v => cases h
  | failed l e =>
    simp only [look] at h
    split at h <;> cases h

/-- The slot of a name when all its attempts are settled. -/
def Slot.after : List Attempt → Slot
  | [] => .vacant
  | a :: _ => ⟨a.number, .settled a.number a.outcome⟩

theorem Slot.attempts_after {attempts : List Attempt} (h : Attempt.InOrder attempts) :
    (after attempts).attempts = attempts.length := by
  cases attempts with
  | nil => rfl
  | cons a earlier => exact h.1

theorem SlotState.settled_ne_resolving (attempt k : Nat) (outcome : Except Failure Value) :
    settled attempt outcome ≠ .resolving k := by
  unfold settled
  split <;> exact nofun

theorem Slot.after_ne_resolving (attempts : List Attempt) (k : Nat) :
    (after attempts).state ≠ .resolving k := by
  cases attempts with
  | nil => exact nofun
  | cons a earlier => exact SlotState.settled_ne_resolving a.number k a.outcome

theorem SlotState.settled_eq_resolved_iff {k : Nat} {outcome : Except Failure Value} {v : Value} :
    SlotState.settled k outcome = .resolved v ↔ outcome = .ok v := by
  unfold settled
  split <;> simp

theorem Slot.after_eq_resolved_iff {attempts : List Attempt} {v : Value} :
    (after attempts).state = .resolved v ↔
      ∃ k name earlier, attempts = ⟨name, k, .ok v⟩ :: earlier := by
  cases attempts with
  | nil => simp [after, vacant]
  | cons a earlier =>
    obtain ⟨name, k, outcome⟩ := a
    simp only [after, SlotState.settled_eq_resolved_iff, List.cons.injEq, Attempt.mk.injEq]
    grind

/-- If the slot holds no value, no attempt has come to one. -/
theorem Attempt.InOrder.ne_ok {attempts : List Attempt} (h : InOrder attempts)
    (hslot : ∀ v, (Slot.after attempts).state ≠ .resolved v) :
    ∀ a ∈ attempts, ∀ v, a.outcome ≠ .ok v := by
  cases attempts with
  | nil =>
    intro a ha
    cases ha
  | cons a earlier =>
    intro b hb v hv
    rcases List.mem_cons.mp hb with rfl | hb
    · exact hslot v (SlotState.settled_eq_resolved_iff.mpr hv)
    · exact h.2.1 b hb v hv

/-- How far the attempts on a name have come: who holds one, and what the slot and the records
are, given the attempts that have come to their outcomes. -/
inductive Stage (name : String) (holds : Nat → Phase → Prop) (slot : Slot)
    (notes : Option Value × Option Unit) : List Attempt → Prop where
  | idle {attempts : List Attempt} : (∀ i p, ¬holds i p) → slot = .after attempts →
      notes = Attempt.notes attempts → Stage name holds slot notes attempts
  | begun {attempts : List Attempt} (i : Nat) :
      (∀ j p, holds j p ↔ j = i ∧ p = .resolving (attempts.length + 1)) →
      slot = ⟨attempts.length + 1, .resolving (attempts.length + 1)⟩ →
      notes = Attempt.notes attempts → (∀ a ∈ attempts, ∀ v, a.outcome ≠ .ok v) →
      Stage name holds slot notes attempts
  | concluded {earlier : List Attempt} (i : Nat) (outcome : Except Failure Value) :
      (∀ j p, holds j p ↔ j = i ∧ p = .recording (earlier.length + 1) outcome) →
      slot = ⟨earlier.length + 1, .resolving (earlier.length + 1)⟩ →
      notes = Attempt.notes earlier →
      Stage name holds slot notes (⟨name, earlier.length + 1, outcome⟩ :: earlier)
  | noted {earlier : List Attempt} (i : Nat) (outcome : Except Failure Value) :
      (∀ j p, holds j p ↔ j = i ∧ p = .publishing (earlier.length + 1) outcome) →
      slot = ⟨earlier.length + 1, .resolving (earlier.length + 1)⟩ →
      notes = Attempt.note outcome (Attempt.notes earlier) →
      Stage name holds slot notes (⟨name, earlier.length + 1, outcome⟩ :: earlier)

/-- What the phase of a caller tells of the cache: a name that has a slot is in the table, and a
value that was given out is in the slot. -/
def Caller.Fits (cache : Cache σ) (c : Caller) : Prop :=
  match c.phase with
  | .looking _ => (cache.table.get? c.name).isSome
  | .asleep _ => (cache.table.get? c.name).isSome
  | .resolving _ => (cache.table.get? c.name).isSome
  | .waking outcome => ∀ v, outcome = .ok v → (cache.slot c.name).state = .resolved v
  | .answered result => ∀ v, result = .ok v → (cache.slot c.name).state = .resolved v
  | _ => True

namespace Course

/-- The stage of a name in a course. -/
def StageOf (r : Course σ) (name : String) : Prop :=
  Stage name (r.now.Holds name) (r.now.cache.slot name) (r.now.cache.notes name) (r.attempts name)

/-- What holds all along a course. -/
structure Sound (r : Course σ) : Prop where
  inOrder : ∀ name, Attempt.InOrder (r.attempts name)
  stage : ∀ name, r.StageOf name
  fits : ∀ (i : Nat) (c : Caller), r.now.callers[i]? = some c → c.Fits r.now.cache

theorem StageOf.frame {r r' : Course σ} {name : String} (h : r.StageOf name)
    (hholds : r'.now.Holds name = r.now.Holds name)
    (hslot : r'.now.cache.slot name = r.now.cache.slot name)
    (hnotes : r'.now.cache.notes name = r.now.cache.notes name)
    (hattempts : r'.attempts name = r.attempts name) : r'.StageOf name := by
  unfold StageOf
  rw [hholds, hslot, hnotes, hattempts]
  exact h

theorem sound_start (table : Table σ) (host : σ) : (start table host).Sound where
  inOrder _ := trivial
  stage name := .idle (fun i p h => by simp [start, Callers.Holds] at h) rfl rfl
  fits i c h := by simp [start] at h

section Stages

variable {r : Course σ} {name : String} {i k : Nat} {old : Phase}
  {outcome : Except Failure Value}

/-- A slot that is not being resolved is as the attempts have left it, and nobody holds one. -/
theorem StageOf.of_not_resolving (h : r.StageOf name)
    (hslot : ∀ k, (r.now.cache.slot name).state ≠ .resolving k) :
    (∀ i p, ¬r.now.Holds name i p) ∧ r.now.cache.slot name = .after (r.attempts name) ∧
      r.now.cache.notes name = Attempt.notes (r.attempts name) := by
  unfold StageOf at h
  generalize r.attempts name = attempts at h ⊢
  cases h with
  | idle hfree hafter hnotes => exact ⟨hfree, hafter, hnotes⟩
  | begun i hheld hbusy => exact absurd (congrArg Slot.state hbusy) (hslot _)
  | concluded i outcome hheld hbusy => exact absurd (congrArg Slot.state hbusy) (hslot _)
  | noted i outcome hheld hbusy => exact absurd (congrArg Slot.state hbusy) (hslot _)

/-- Who holds an attempt is the only one, and the slot says which attempt it is. -/
theorem StageOf.of_holds (h : r.StageOf name) {phase : Phase} (hholds : r.now.Holds name i phase) :
    ∃ k, phase.attempt? = some k ∧ r.now.cache.slot name = ⟨k, .resolving k⟩ ∧
      ∀ j p, r.now.Holds name j p → j = i ∧ p = phase := by
  unfold StageOf at h
  generalize r.attempts name = past at h
  cases h with
  | idle hfree => exact absurd hholds (hfree _ _)
  | begun j hheld hslot =>
    obtain ⟨rfl, rfl⟩ := (hheld _ _).mp hholds
    exact ⟨_, rfl, hslot, fun l p => (hheld l p).mp⟩
  | concluded j o hheld hslot =>
    obtain ⟨rfl, rfl⟩ := (hheld _ _).mp hholds
    exact ⟨_, rfl, hslot, fun l p => (hheld l p).mp⟩
  | noted j o hheld hslot =>
    obtain ⟨rfl, rfl⟩ := (hheld _ _).mp hholds
    exact ⟨_, rfl, hslot, fun l p => (hheld l p).mp⟩

/-- A slot that is being resolved has somebody who holds the attempt. -/
theorem StageOf.exists_holds (h : r.StageOf name)
    (hslot : (r.now.cache.slot name).state = .resolving k) :
    ∃ i phase, r.now.Holds name i phase := by
  unfold StageOf at h
  generalize r.attempts name = past at h
  cases h with
  | idle _ hafter => exact absurd (hafter ▸ hslot) (Slot.after_ne_resolving _ k)
  | begun i hheld => exact ⟨i, _, (hheld _ _).mpr ⟨rfl, rfl⟩⟩
  | concluded i _ hheld => exact ⟨i, _, (hheld _ _).mpr ⟨rfl, rfl⟩⟩
  | noted i _ hheld => exact ⟨i, _, (hheld _ _).mpr ⟨rfl, rfl⟩⟩

/-- An attempt under way is the last one begun. -/
theorem StageOf.slot_eq (h : r.StageOf name)
    (hslot : (r.now.cache.slot name).state = .resolving k) :
    r.now.cache.slot name = ⟨k, .resolving k⟩ := by
  obtain ⟨i, phase, hholds⟩ := h.exists_holds hslot
  obtain ⟨l, -, hl, -⟩ := h.of_holds hholds
  rw [hl] at hslot ⊢
  cases hslot
  rfl

/-- A resolver runs for the attempt whose number comes next, and only while there is no value. -/
theorem StageOf.of_resolving (h : r.StageOf name)
    (hi : r.now.callers[i]? = some ⟨name, .resolving k⟩) :
    k = (r.attempts name).length + 1 ∧ ∀ a ∈ r.attempts name, ∀ v, a.outcome ≠ .ok v := by
  have hholds : r.now.Holds name i (.resolving k) := ⟨hi, rfl⟩
  unfold StageOf at h
  generalize r.attempts name = past at h ⊢
  cases h with
  | idle hfree => exact absurd hholds (hfree _ _)
  | begun j hheld hslot hnotes hvalues =>
    obtain ⟨-, hphase⟩ := (hheld _ _).mp hholds
    exact ⟨Phase.resolving.inj hphase, hvalues⟩
  | concluded j o hheld => exact nomatch ((hheld _ _).mp hholds).2
  | noted j o hheld => exact nomatch ((hheld _ _).mp hholds).2

/-- Only a name whose attempts are settled and have come to no value gets a new attempt. -/
theorem StageOf.begin (h : r.StageOf name) (horder : Attempt.InOrder (r.attempts name))
    (hi : r.now.callers[i]? = some ⟨name, old⟩) {waited : Option Nat}
    (hlook : (r.now.cache.slot name).look waited = .begin k) :
    StageOf ⟨{ r.now with cache := r.now.cache.begin name k }.move i (.resolving k), r.past⟩
      name := by
  obtain ⟨hk, hfree, hvalue⟩ := Slot.look_eq_begin hlook
  obtain ⟨hnobody, hafter, hnotes⟩ := h.of_not_resolving hfree
  obtain rfl : k = (r.attempts name).length + 1 := by
    rw [hk, hafter, Slot.attempts_after horder]
  have hvalues : ∀ a ∈ r.attempts name, ∀ v, a.outcome ≠ .ok v := horder.ne_ok (hafter ▸ hvalue)
  refine .begun i (fun j q => ?_) (by simp [Callers.move, attempts]) hnotes hvalues
  refine (Callers.holds_move_self hi).trans ?_
  split
  next hj => simp [hj, Phase.attempt?, attempts]
  next hj => simpa [hj] using hnobody j q

theorem held_of_held {phase phase' : Phase} (hi : r.now.callers[i]? = some ⟨name, old⟩)
    (hheld : ∀ j p, r.now.Holds name j p ↔ j = i ∧ p = phase) (hphase : phase'.attempt?.isSome)
    (j : Nat) (p : Phase) : (r.now.move i phase').Holds name j p ↔ j = i ∧ p = phase' := by
  refine (Callers.holds_move_self hi).trans ?_
  split
  next hj => simp [hj, hphase]
  next hj => simp [hheld, hj]

/-- When the resolver has run, its outcome is one more attempt. -/
theorem StageOf.conclude (h : r.StageOf name) (hi : r.now.callers[i]? = some ⟨name, .resolving k⟩)
    (world : World σ) (outcome : Except Failure Value) :
    StageOf ⟨{ r.now with world := world }.move i (.recording k outcome),
      ⟨name, k, outcome⟩ :: r.past⟩ name := by
  have hholds : r.now.Holds name i (.resolving k) := ⟨hi, rfl⟩
  unfold StageOf at h
  have hattempts : attempts ⟨{ r.now with world := world }.move i (.recording k outcome),
      ⟨name, k, outcome⟩ :: r.past⟩ name = ⟨name, k, outcome⟩ :: r.attempts name := by
    simp [attempts]
  unfold StageOf
  rw [hattempts]
  generalize r.attempts name = past at h ⊢
  cases h with
  | idle hfree => exact absurd hholds (hfree _ _)
  | begun j hheld hslot hnotes =>
    obtain ⟨rfl, hphase⟩ := (hheld _ _).mp hholds
    cases hphase
    exact .concluded i outcome (held_of_held hi hheld rfl) hslot hnotes
  | concluded j o hheld => cases ((hheld _ _).mp hholds).2
  | noted j o hheld => cases ((hheld _ _).mp hholds).2

/-- The records take the outcome up. -/
theorem StageOf.record (h : r.StageOf name)
    (hi : r.now.callers[i]? = some ⟨name, .recording k outcome⟩) :
    StageOf ⟨{ r.now with cache := r.now.cache.record name outcome }.move i
      (.publishing k outcome), r.past⟩ name := by
  have hholds : r.now.Holds name i (.recording k outcome) := ⟨hi, rfl⟩
  unfold StageOf at h ⊢
  change Stage name _ ((r.now.cache.record name outcome).slot name)
    ((r.now.cache.record name outcome).notes name) (r.attempts name)
  rw [Cache.slot_record, Cache.notes_record, if_pos rfl]
  generalize r.attempts name = past at h ⊢
  cases h with
  | idle hfree => exact absurd hholds (hfree _ _)
  | begun j hheld => exact nomatch ((hheld _ _).mp hholds).2
  | concluded j o hheld hslot hnotes =>
    obtain ⟨rfl, hphase⟩ := (hheld _ _).mp hholds
    cases hphase
    exact .noted i outcome (held_of_held hi hheld rfl) hslot (by rw [hnotes])
  | noted j o hheld => exact nomatch ((hheld _ _).mp hholds).2

/-- Publishing the outcome settles the attempt. -/
theorem StageOf.publish (h : r.StageOf name)
    (hi : r.now.callers[i]? = some ⟨name, .publishing k outcome⟩) :
    StageOf ⟨{ r.now with cache := r.now.cache.publish name k outcome }.move i
      (.waking outcome), r.past⟩ name := by
  have hholds : r.now.Holds name i (.publishing k outcome) := ⟨hi, rfl⟩
  unfold StageOf at h ⊢
  change Stage name _ ((r.now.cache.publish name k outcome).slot name)
    (r.now.cache.notes name) (r.attempts name)
  rw [Cache.slot_publish, if_pos rfl]
  generalize r.attempts name = past at h ⊢
  cases h with
  | idle hfree => exact absurd hholds (hfree _ _)
  | begun j hheld => exact nomatch ((hheld _ _).mp hholds).2
  | concluded j o hheld => exact nomatch ((hheld _ _).mp hholds).2
  | noted j o hheld hslot hnotes =>
    obtain ⟨rfl, hphase⟩ := (hheld _ _).mp hholds
    cases hphase
    refine .idle (fun l p hl => ?_) (by rw [hslot]; rfl) hnotes
    have hl := (Callers.holds_move_self hi).mp hl
    split at hl
    next => exact nomatch hl.2
    next hne => exact hne ((hheld l p).mp hl).1

end Stages

/-- A step leaves every name in a stage. -/
theorem StageOf.step {r : Course σ} {t : Callers σ} {i : Nat} {name : String} {phase : Phase}
    (hr : r.Sound) (h : r.now.Moves i name phase t)
    (hi : r.now.callers[i]? = some ⟨name, phase⟩) (other : String) :
    StageOf ⟨t, t.concluded i ++ r.past⟩ other := by
  by_cases hne : other = name
  · subst hne
    have hstage := hr.stage other
    rw [h.concluded_eq hi]
    cases h with
    | refuse => exact hstage.frame (Callers.holds_move_of_free hi rfl rfl _) rfl rfl rfl
    | enter =>
      exact hstage.frame (Callers.holds_move_of_free hi rfl rfl _) (by simp [Callers.move]) rfl rfl
    | answer => exact hstage.frame (Callers.holds_move_of_free hi rfl rfl _) rfl rfl rfl
    | wait => exact hstage.frame (Callers.holds_move_of_free hi rfl rfl _) rfl rfl rfl
    | begin hlook => exact hstage.begin (hr.inOrder other) hi hlook
    | conclude hsymbol =>
      rw [hsymbol]
      exact hstage.conclude hi _ _
    | lose hnone =>
      have hsome := hr.fits i _ hi
      simp [Caller.Fits, hnone] at hsome
    | record => exact hstage.record hi
    | publish => exact hstage.publish hi
    | wake =>
      refine hstage.frame ?_ rfl rfl rfl
      rw [← r.now.holds_wake other other]
      exact Callers.holds_move_of_free (Callers.getElem?_wake hi (by simp) other) rfl rfl _
  · obtain ⟨hholds, hslot, hnotes⟩ := h.elsewhere hi hne
    exact (hr.stage other).frame hholds hslot hnotes (attempts_elsewhere h hi hne)

theorem InOrder.step {r : Course σ} {t : Callers σ} {i : Nat} {name : String} {phase : Phase}
    (hr : r.Sound) (h : r.now.Moves i name phase t)
    (hi : r.now.callers[i]? = some ⟨name, phase⟩) (other : String) :
    Attempt.InOrder (attempts ⟨t, t.concluded i ++ r.past⟩ other) := by
  by_cases hne : other = name
  · subst hne
    rw [h.concluded_eq hi]
    cases h with
    | @conclude k symbol hsymbol =>
      obtain ⟨hk, hvalues⟩ := (hr.stage other).of_resolving hi
      rw [hsymbol]
      simp only [attempts, List.singleton_append, List.filter_cons, decide_true, ↓reduceIte]
      exact ⟨hk, hvalues, hr.inOrder other⟩
    | lose hnone => rw [hnone]; exact hr.inOrder other
    | _ => exact hr.inOrder other
  · rw [attempts_elsewhere h hi hne]
    exact hr.inOrder other

/-- A value stays in its slot. -/
theorem Sound.resolved_step {r : Course σ} {t : Callers σ} {i : Nat} {name : String}
    {phase : Phase} (hr : r.Sound) (h : r.now.Moves i name phase t)
    (hi : r.now.callers[i]? = some ⟨name, phase⟩) {other : String} {v : Value}
    (hv : (r.now.cache.slot other).state = .resolved v) :
    (t.cache.slot other).state = .resolved v := by
  by_cases hne : other = name
  · subst hne
    cases h with
    | enter => simpa [Callers.move] using hv
    | begin hlook => exact absurd hv ((Slot.look_eq_begin hlook).2.2 v)
    | record => simpa [Callers.move] using hv
    | publish =>
      obtain ⟨k, -, hslot, -⟩ := (hr.stage other).of_holds ⟨hi, rfl⟩
      rw [hslot] at hv
      cases hv
    | _ => exact hv
  · rw [(h.elsewhere hi hne).2.1]
    exact hv

end Course

theorem Caller.Fits.mono {cache cache' : Cache σ} {c : Caller} (h : c.Fits cache)
    (htable : cache'.table = cache.table)
    (hresolved : ∀ v, (cache.slot c.name).state = .resolved v →
      (cache'.slot c.name).state = .resolved v) : c.Fits cache' := by
  unfold Fits at h ⊢
  split at h <;> simp_all

theorem Caller.Fits.wake {cache : Cache σ} {c : Caller} (h : c.Fits cache) (name : String) :
    (c.wake name).Fits cache := by
  unfold Caller.wake
  split
  · split
    next hphase => simpa [Fits, hphase] using h
    next => exact h
  · exact h

namespace Course

theorem fits_move {s : Callers σ} {cache : Cache σ} {i : Nat} {name : String} {old phase : Phase}
    (hfits : ∀ (j : Nat) (c : Caller), s.callers[j]? = some c → c.Fits cache)
    (hi : s.callers[i]? = some ⟨name, old⟩) {j : Nat} {c : Caller}
    (hc : (s.move i phase).callers[j]? = some c) (hnew : (Caller.mk name phase).Fits cache) :
    c.Fits cache := by
  rw [Callers.getElem?_move] at hc
  split at hc
  next hj =>
    subst hj
    rw [hi] at hc
    exact Option.some.inj hc ▸ hnew
  next => exact hfits j c hc

theorem Fits.step {r : Course σ} {t : Callers σ} {i : Nat} {name : String} {phase : Phase}
    (hr : r.Sound) (h : r.now.Moves i name phase t)
    (hi : r.now.callers[i]? = some ⟨name, phase⟩) (j : Nat) (c : Caller)
    (hc : t.callers[j]? = some c) : c.Fits t.cache := by
  have hothers : ∀ (j : Nat) (c : Caller), r.now.callers[j]? = some c → c.Fits t.cache :=
    fun j c hj => (hr.fits j c hj).mono h.table_eq fun v => hr.resolved_step h hi
  have hfits := hothers i _ hi
  cases h with
  | refuse => exact fits_move hothers hi hc fun v hv => nomatch hv
  | enter hsome => exact fits_move hothers hi hc hsome
  | @answer waited result hlook =>
    refine fits_move hothers hi hc fun v hv => ?_
    cases result with
    | ok w => exact Except.ok.inj hv ▸ Slot.look_eq_answer_ok hlook
    | error e => cases hv
  | wait => exact fits_move hothers hi hc hfits
  | begin => exact fits_move hothers hi hc hfits
  | conclude => exact fits_move hothers hi hc trivial
  | lose => exact fits_move hothers hi hc fun v hv => nomatch hv
  | record => exact fits_move hothers hi hc trivial
  | publish =>
    refine fits_move hothers hi hc fun v hv => ?_
    simp only [Callers.move, Cache.slot_publish, ↓reduceIte]
    exact SlotState.settled_eq_resolved_iff.mpr hv
  | wake =>
    refine fits_move (fun j c hj => ?_) (Callers.getElem?_wake hi (by simp) name) hc hfits
    rw [List.getElem?_map, Option.map_eq_some_iff] at hj
    obtain ⟨d, hd, rfl⟩ := hj
    exact (hothers j d hd).wake name

/-- Whatever happens, a course stays sound. -/
theorem Sound.next {r : Course σ} (hr : r.Sound) (e : Event σ) : (r.next e).Sound := by
  cases e with
  | arrive name =>
    refine ⟨hr.inOrder, fun other => (hr.stage other).frame ?_ rfl rfl rfl, fun j c hc => ?_⟩
    · funext j p
      refine propext ⟨fun ⟨hj, hp⟩ => ?_, fun ⟨hj, hp⟩ => ⟨getElem?_arrive hj name, hp⟩⟩
      rcases eq_or_getElem?_of_arrive hj with harriving | hj
      · cases harriving
        cases hp
      · exact ⟨hj, hp⟩
    · rcases eq_or_getElem?_of_arrive hc with rfl | hc
      · trivial
      · exact hr.fits j c hc
  | step i =>
    rcases r.next_step_cases i with hsame | ⟨name, phase, t, hi, hmoves, hnext⟩
    · rwa [hsame]
    · rw [hnext]
      exact ⟨InOrder.step hr hmoves hi, StageOf.step hr hmoves hi, Fits.step hr hmoves hi⟩
  | host state => exact ⟨hr.inOrder, hr.stage, hr.fits⟩

theorem sound_run (table : Table σ) (host : σ) (events : List (Event σ)) :
    ((start table host).run events).Sound :=
  run_keeps (fun _ e hr => hr.next e) (sound_start table host) events

/-- How often the resolver of a name has run. -/
def runs (r : Course σ) (name : String) : Nat := r.now.world.log.count name

/-- Only a name whose attempt is under way has its resolver run. -/
theorem runs_step {r : Course σ} {t : Callers σ} {i : Nat} {name : String} {phase : Phase}
    (h : r.now.Moves i name phase t) (hi : r.now.callers[i]? = some ⟨name, phase⟩)
    (other : String) (hother : ∀ i p, ¬r.now.Holds other i p) :
    t.world.log.count other = r.runs other := by
  cases h with
  | @conclude k symbol hsymbol =>
    have hne : name ≠ other := by
      rintro rfl
      exact hother i _ ⟨hi, rfl⟩
    unfold runs Callers.move
    cases symbol with
    | value v => rfl
    | json data =>
      simp only [Symbol.resolve]
      split <;> rfl
    | resolver run => exact List.count_cons_of_ne hne
  | _ => rfl

/-- What a name with a value keeps: the value, its attempts, and how often its resolver ran. -/
theorem Sound.resolved_next {r : Course σ} (hr : r.Sound) {name : String} {v : Value}
    (hv : (r.now.cache.slot name).state = .resolved v) (e : Event σ) :
    ((r.next e).now.cache.slot name).state = .resolved v ∧
      (r.next e).attempts name = r.attempts name ∧ (r.next e).runs name = r.runs name := by
  cases e with
  | arrive other => exact ⟨hv, rfl, rfl⟩
  | host state => exact ⟨hv, rfl, rfl⟩
  | step i =>
    have hnobody : ∀ i p, ¬r.now.Holds name i p :=
      ((hr.stage name).of_not_resolving (hv ▸ nofun)).1
    rcases r.next_step_cases i with hsame | ⟨other, phase, t, hi, hmoves, hnext⟩
    · rw [hsame]
      exact ⟨hv, rfl, rfl⟩
    · rw [hnext]
      refine ⟨hr.resolved_step hmoves hi hv, ?_, runs_step hmoves hi name hnobody⟩
      by_cases hne : name = other
      · subst hne
        rw [hmoves.concluded_eq hi]
        cases hmoves with
        | conclude => exact absurd ⟨hi, rfl⟩ (hnobody i _)
        | lose => exact absurd ⟨hi, rfl⟩ (hnobody i _)
        | _ => rfl
      · exact attempts_elsewhere hmoves hi hne

theorem Sound.resolved_run {r : Course σ} (hr : r.Sound) {name : String} {v : Value}
    (hv : (r.now.cache.slot name).state = .resolved v) (later : List (Event σ)) :
    ((r.run later).now.cache.slot name).state = .resolved v ∧
      (r.run later).attempts name = r.attempts name ∧ (r.run later).runs name = r.runs name := by
  induction later generalizing r with
  | nil => exact ⟨hv, rfl, rfl⟩
  | cons e later ih =>
    obtain ⟨hv', hattempts, hruns⟩ := hr.resolved_next hv e
    obtain ⟨hlast, hattempts', hruns'⟩ := ih (hr.next e) hv'
    exact ⟨hlast, hattempts'.trans hattempts, hruns'.trans hruns⟩

/-- A name whose slot holds a value has come to that value alone, and the records say so. -/
theorem Sound.of_resolved {r : Course σ} (hr : r.Sound) {name : String} {v : Value}
    (hv : (r.now.cache.slot name).state = .resolved v) :
    Attempt.values (r.attempts name) = [v] ∧ r.now.cache.used.get? name = some v := by
  obtain ⟨-, hafter, hnotes⟩ := (hr.stage name).of_not_resolving (hv ▸ nofun)
  obtain ⟨k, n, earlier, hattempts⟩ := Slot.after_eq_resolved_iff.mp (hafter ▸ hv)
  have horder := hr.inOrder name
  rw [hattempts] at horder hnotes ⊢
  refine ⟨?_, congrArg Prod.fst hnotes⟩
  rw [Attempt.values, List.filterMap_cons]
  exact congrArg (v :: ·) (Attempt.values_eq_nil_iff.mpr horder.2.1)

/-- In every order of steps: a slot is being resolved exactly when one caller alone holds an
attempt, with the number that the slot says; at most one attempt on a name comes to a value; and
once a request is answered by a value, that value is the one, the record of used values has it,
and the resolver of the name does not run again. -/
theorem one_attempt_one_value (table : Table σ) (host : σ) (events : List (Event σ))
    (name : String) :
    let r := (start table host).run events
    (∀ i j p q, r.now.Holds name i p → r.now.Holds name j q → i = j) ∧
    (∀ k, (r.now.cache.slot name).state = .resolving k ↔
      ∃ i p, r.now.Holds name i p ∧ p.attempt? = some k ∧
        ∀ j q, r.now.Holds name j q → j = i) ∧
    (Attempt.values (r.attempts name)).length ≤ 1 ∧
    ∀ (i : Nat) (v : Value), r.now.callers[i]? = some ⟨name, .answered (.ok v)⟩ →
      Attempt.values (r.attempts name) = [v] ∧ r.now.cache.used.get? name = some v ∧
      ∀ later, (r.run later).attempts name = r.attempts name ∧
        (r.run later).runs name = r.runs name := by
  intro r
  have hr : r.Sound := sound_run table host events
  have hstage := hr.stage name
  refine ⟨fun i j p q hi hj => ?_, fun k => ⟨fun hslot => ?_, ?_⟩,
    (hr.inOrder name).length_values_le, fun i v hi => ?_⟩
  · obtain ⟨-, -, -, honly⟩ := hstage.of_holds hi
    exact (honly j q hj).1.symm
  · obtain ⟨i, p, hholds⟩ := hstage.exists_holds hslot
    obtain ⟨l, hl, hslot', honly⟩ := hstage.of_holds hholds
    rw [hslot'] at hslot
    cases hslot
    exact ⟨i, p, hholds, hl, fun j q hj => (honly j q hj).1⟩
  · rintro ⟨i, p, hholds, hk, -⟩
    obtain ⟨l, hl, hslot, -⟩ := hstage.of_holds hholds
    rw [hslot]
    exact congrArg _ (Option.some.inj (hl.symm.trans hk))
  · have hv : (r.now.cache.slot name).state = .resolved v := hr.fits i _ hi v rfl
    obtain ⟨hvalues, hused⟩ := hr.of_resolved hv
    exact ⟨hvalues, hused, fun later => (hr.resolved_run hv later).2⟩

end Course

end FilterLang
