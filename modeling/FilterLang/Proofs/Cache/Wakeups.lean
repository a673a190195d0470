import FilterLang.Proofs.Cache.Waiters

/-! Nobody who waits is forgotten. As long as somebody waits for an attempt on a name, the slot of
the name is being resolved, so that the one who holds the attempt will publish an outcome, or an
outcome is published and its caller is about to wake those who wait. A new attempt may begin in
between; it then makes up for the one that has ended. So a caller who is not answered is never left
with nobody who can step. -/

namespace FilterLang

variable {σ : Type}

namespace Callers

/-- Somebody waits for an attempt on the name. -/
def Awaited (s : Callers σ) (name : String) : Prop :=
  ∃ i k : Nat, s.callers[i]? = some ⟨name, .asleep k⟩

/-- Somebody has published an outcome for the name and has not woken those who wait. -/
def ToBeWoken (s : Callers σ) (name : String) : Prop :=
  ∃ (i : Nat) (outcome : Except Failure Value), s.callers[i]? = some ⟨name, .waking outcome⟩

/-- The name is being resolved, by an attempt that a caller other than the given one holds. -/
def HeldByAnother (s : Callers σ) (name : String) (i : Nat) : Prop :=
  ∃ k j phase, (s.cache.slot name).state = .resolving k ∧ j ≠ i ∧ s.Holds name j phase ∧
    phase.attempt? = some k

/-- Whoever waits for an attempt on the name can count on being woken. -/
def Attended (s : Callers σ) (name : String) : Prop :=
  s.Awaited name → (∃ k, (s.cache.slot name).state = .resolving k) ∨ s.ToBeWoken name

section

variable {s t : Callers σ} {i : Nat} {name other : String} {old phase : Phase}

/-- Those who neither go to sleep nor were about to wake others do not matter. -/
theorem Attended.move (h : s.Attended name) (hi : s.callers[i]? = some ⟨name, old⟩)
    (hold : ∀ outcome, old ≠ .waking outcome) (hphase : ∀ k, phase ≠ .asleep k)
    {cache : Cache σ} {world : World σ} (hslot : cache.slot name = s.cache.slot name) :
    (Callers.move ⟨cache, world, s.callers⟩ i phase).Attended name := by
  rintro ⟨j, k, hj⟩
  rw [getElem?_move] at hj
  split at hj
  next hij =>
    subst hij
    have hcaller : Caller.mk name phase = ⟨name, .asleep k⟩ := by simpa [hi] using hj
    exact absurd (congrArg Caller.phase hcaller) (hphase k)
  next =>
    rcases h ⟨j, k, hj⟩ with ⟨m, hm⟩ | ⟨l, outcome, hl⟩
    · exact .inl ⟨m, hslot ▸ hm⟩
    · refine .inr ⟨l, outcome, ?_⟩
      rw [getElem?_move]
      split
      next hil =>
        subst hil
        have hcaller : Caller.mk name old = ⟨name, .waking outcome⟩ := by simpa [hi] using hl
        exact absurd (congrArg Caller.phase hcaller) (hold outcome)
      next => exact hl

/-- A step does not touch the callers who ask for other names. -/
theorem Moves.getElem?_elsewhere (h : s.Moves i name phase t)
    (hi : s.callers[i]? = some ⟨name, phase⟩) (hne : other ≠ name) (j : Nat) (p : Phase) :
    t.callers[j]? = some ⟨other, p⟩ ↔ s.callers[j]? = some ⟨other, p⟩ := by
  by_cases hij : j = i
  · subst hij
    obtain ⟨q, hq⟩ := h.exists_phase hi
    rw [hi, hq]
    simp [Ne.symm hne]
  · rcases h.getElem?_of_ne hij with hsame | hwoken
    · rw [hsame]
    · rw [hwoken, Option.map_eq_some_iff]
      constructor
      · rintro ⟨c, hc, hwake⟩
        have hname : c.name ≠ name := by
          rintro rfl
          rw [Caller.wake, if_pos rfl] at hwake
          split at hwake <;> exact hne (congrArg Caller.name hwake).symm
        rw [Caller.wake, if_neg hname] at hwake
        exact hwake ▸ hc
      · intro hj
        exact ⟨_, hj, if_neg hne⟩

/-- After the waking nobody waits. -/
theorem not_awaited_of_wake {result : Except Failure Value}
    (hi : s.callers[i]? = some ⟨name, .waking result⟩) :
    ¬({ s with callers := s.callers.map (Caller.wake name) }.move i (.answered result)).Awaited
      name := by
  rintro ⟨j, k, hj⟩
  rw [getElem?_move] at hj
  split at hj
  next hij =>
    subst hij
    simp [getElem?_wake hi (by simp) name] at hj
  next =>
    rw [List.getElem?_map, Option.map_eq_some_iff] at hj
    obtain ⟨⟨other, p⟩, -, hwake⟩ := hj
    unfold Caller.wake at hwake
    split at hwake
    next => cases p <;> cases hwake
    next hname => exact hname (congrArg Caller.name hwake)

/-- Every step leaves those who wait attended. -/
theorem Attended.step (hs : s.Attended other) (h : s.Moves i name phase t)
    (hi : s.callers[i]? = some ⟨name, phase⟩) : t.Attended other := by
  by_cases hne : other = name
  · subst hne
    cases h with
    | refuse => exact hs.move hi (by simp) (by simp) rfl
    | enter => exact hs.move hi (by simp) (by simp) (by simp)
    | answer => exact hs.move hi (by simp) (by simp) rfl
    | wait hlook => exact fun _ => .inl ⟨_, Slot.look_eq_wait hlook⟩
    | @begin _ k hlook => exact fun _ => .inl ⟨k, by simp [Callers.move]⟩
    | conclude => exact hs.move hi (by simp) (by simp) rfl
    | lose => exact hs.move hi (by simp) (by simp) rfl
    | record => exact hs.move hi (by simp) (by simp) (by simp)
    | publish => exact fun _ => .inr ⟨i, _, getElem?_move_self hi _⟩
    | wake => exact fun hawaited => absurd hawaited (not_awaited_of_wake hi)
  · have hcallers := h.getElem?_elsewhere hi hne
    unfold Attended Awaited ToBeWoken at hs ⊢
    simp only [hcallers, (h.elsewhere hi hne).2.1]
    exact hs

/-- Whoever does not wait and is not answered can step. -/
theorem exists_step? (hi : s.callers[i]? = some ⟨name, phase⟩) (hasleep : ∀ k, phase ≠ .asleep k)
    (hanswered : ∀ x, phase ≠ .answered x) : ∃ t, s.step? i = some t := by
  cases phase with
  | arriving =>
    simp only [step?, hi, Option.bind_some]
    split <;> exact ⟨_, rfl⟩
  | asleep k => exact absurd rfl (hasleep k)
  | answered x => exact absurd rfl (hanswered x)
  | _ => exact ⟨_, by rw [step?, hi]; rfl⟩

end

end Callers

namespace Course

theorem attended_next {r : Course σ} (hr : ∀ name, r.now.Attended name) (e : Event σ)
    (name : String) : (r.next e).now.Attended name := by
  cases e with
  | arrive other =>
    rintro ⟨i, k, hi⟩
    rcases eq_or_getElem?_of_arrive hi with harriving | hi
    · cases harriving
    · refine (hr name ⟨i, k, hi⟩).imp_right ?_
      rintro ⟨j, outcome, hj⟩
      exact ⟨j, outcome, getElem?_arrive hj other⟩
  | host state => exact hr name
  | step i =>
    rcases r.next_step_cases i with hsame | ⟨other, phase, t, hi, hmoves, hnext⟩
    · rw [hsame]
      exact hr name
    · rw [hnext]
      exact (hr name).step hmoves hi

theorem attended_run (table : Table σ) (host : σ) (events : List (Event σ)) :
    ∀ name, ((start table host).run events).now.Attended name :=
  run_keeps (P := fun r => ∀ name, r.now.Attended name) (fun _ e hr => attended_next hr e)
    (fun _ ⟨_, _, h⟩ => by simp [start] at h) events

/-- Whoever waits does so while another caller holds the attempt that the slot is resolved by, or
while an outcome is published whose caller has not woken those who wait. So there is always a
caller who can step among those who ask for the name of one that is not answered. -/
theorem nobody_stranded (table : Table σ) (host : σ) (events : List (Event σ)) (name : String) :
    let s := ((start table host).run events).now
    (∀ i k : Nat, s.callers[i]? = some ⟨name, .asleep k⟩ →
      s.HeldByAnother name i ∨ s.ToBeWoken name) ∧
    ∀ (i : Nat) (phase : Phase), s.callers[i]? = some ⟨name, phase⟩ →
      (∀ x, phase ≠ .answered x) →
      ∃ (j : Nat) (p : Phase) (t : Callers σ),
        s.callers[j]? = some ⟨name, p⟩ ∧ s.step? j = some t := by
  intro s
  have hstage := (sound_run table host events).stage name
  have hwaits : ∀ i k : Nat, s.callers[i]? = some ⟨name, .asleep k⟩ →
      s.HeldByAnother name i ∨ s.ToBeWoken name := by
    intro i k hi
    refine (attended_run table host events name ⟨i, k, hi⟩).imp_left ?_
    rintro ⟨m, hm⟩
    obtain ⟨j, p, hholds⟩ := hstage.exists_holds hm
    obtain ⟨l, hl, hslot, -⟩ := hstage.of_holds hholds
    refine ⟨l, j, p, congrArg Slot.state hslot, ?_, hholds, hl⟩
    rintro rfl
    obtain rfl : Phase.asleep k = p := by simpa [s, hi] using hholds.1
    cases hl
  refine ⟨hwaits, fun i phase hi hanswered => ?_⟩
  by_cases hasleep : ∃ k, phase = .asleep k
  · obtain ⟨k, rfl⟩ := hasleep
    rcases hwaits i k hi with ⟨m, j, p, -, -, ⟨hj, hattempt⟩, -⟩ | ⟨j, outcome, hj⟩
    · obtain ⟨t, ht⟩ := Callers.exists_step? hj (by rintro k rfl; cases hattempt)
        (by rintro x rfl; cases hattempt)
      exact ⟨j, p, t, hj, ht⟩
    · obtain ⟨t, ht⟩ := Callers.exists_step? hj (by simp) (by simp)
      exact ⟨j, _, t, hj, ht⟩
  · obtain ⟨t, ht⟩ := Callers.exists_step? hi (fun k hk => hasleep ⟨k, hk⟩) hanswered
    exact ⟨i, phase, t, hi, ht⟩

/-- Between the end of the first attempt and the waking, another attempt has begun, and the caller
that waits for the first one can count on both. -/
theorem nobody_stranded_between :
    let s := ((start flaky []).run
      (oneWaits ++ [.step 0, .step 0, .step 0, .arrive "x", .step 2, .step 2])).now
    s.callers[1]? = some ⟨"x", .asleep 1⟩ ∧ (s.cache.slot "x").state = .resolving 2 ∧
      (s.HeldByAnother "x" 1 ∨ s.ToBeWoken "x") ∧
      ∃ (j : Nat) (p : Phase) (t : Callers Counts),
        s.callers[j]? = some ⟨"x", p⟩ ∧ s.step? j = some t := by
  intro s
  have hwaits : s.callers[1]? = some ⟨"x", .asleep 1⟩ := rfl
  obtain ⟨hcount, hstep⟩ := nobody_stranded flaky [] _ "x"
  exact ⟨hwaits, rfl, hcount 1 1 hwaits, hstep 1 _ hwaits (by simp)⟩

end Course

end FilterLang
