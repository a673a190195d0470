import FilterLang.Proofs.Cache.Schedule

/-! One attempt among callers who ask for one name at the same time. First nobody has begun it; then
one caller makes it, while the others come to wait for it or, if it is not the first attempt, may
come late; in the end its caller wakes the others. Every step takes the callers on through these
stages. -/

namespace FilterLang

variable {σ : Type}

/-- The next attempt of callers who ask for one name: its number, what it comes to, what it finds
and which world it leaves. Some callers are answered already; all others have last waited for the
same attempt, or for none. -/
structure Round (σ : Type) where
  attempt : Nat
  outcome : Except Failure Value
  slot : Slot
  records : Records
  before : World σ
  after : World σ
  waited : Option Nat
  known : List (Nat × Phase)

namespace Round

variable (R : Round σ)

/-- The caller has not looked at the slot since the others have gone on. -/
def Late (phase : Phase) : Prop :=
  phase = .arriving ∧ R.waited = none ∨ phase = .looking R.waited

/-- The caller waits for the attempt, or has not looked at the slot. -/
def Joins (phase : Phase) : Prop := R.Late phase ∨ phase = .asleep R.attempt

/-- The attempt comes to a value, which the caller has got or will get as soon as it looks. -/
def Benefits (phase : Phase) : Prop :=
  (∃ v, R.outcome = .ok v) ∧ (R.Late phase ∨ phase = .answered R.outcome)

/-- The caller waits for the attempt, or benefits from it. -/
def Stays (phase : Phase) : Prop := phase = .asleep R.attempt ∨ R.Benefits phase

/-- The caller has been woken from waiting for the attempt, or benefits from it. -/
def Wakes (phase : Phase) : Prop := phase = .looking (some R.attempt) ∨ R.Benefits phase

/-- The slot while the attempt is under way. -/
def busy : Slot := ⟨R.attempt, .resolving R.attempt⟩

/-- The slot when the attempt has ended. -/
def settled : Slot := ⟨R.attempt, .settled R.attempt R.outcome⟩

/-- One of the callers who are not answered yet. -/
def Takes (n i : Nat) : Prop := i < n ∧ R.known.lookup i = none

/-- The attempt is the next one on the name. It is the first one of all, or the one after that,
which comes to a value. -/
structure Fits (name : String) (symbol : Symbol σ) (n first : Nat) : Prop where
  look_eq : R.slot.look R.waited = .begin R.attempt
  resolve_eq : symbol.resolve name R.before = (R.outcome, R.after)
  answered : AllAnswered R.known
  exists_takes : ∃ i, R.Takes n i
  order : R.attempt = first ∧ R.waited = none ∧ R.known = [] ∨
    R.attempt = first + 1 ∧ R.waited = some first ∧ ∃ v, R.outcome = .ok v

/-- How far the callers have come with the attempt. -/
inductive Underway (table : Table σ) (name : String) (n : Nat) (s : Callers σ) : Prop
  | gathered : s.Shows table name n ⟨R.slot, R.records, R.before, Allowing R.known R.Late⟩ →
      Underway table name n s
  | begun (i : Nat) : R.Takes n i → s.Shows table name n ⟨R.busy, R.records, R.before,
      Allowing ((i, .resolving R.attempt) :: R.known) R.Joins⟩ → Underway table name n s
  | concluded (i : Nat) : R.Takes n i → s.Shows table name n ⟨R.busy, R.records, R.after,
      Allowing ((i, .recording R.attempt R.outcome) :: R.known) R.Stays⟩ → Underway table name n s
  | recorded (i : Nat) : R.Takes n i → s.Shows table name n ⟨R.busy,
      R.records.note name R.outcome, R.after,
      Allowing ((i, .publishing R.attempt R.outcome) :: R.known) R.Stays⟩ → Underway table name n s
  | published (i : Nat) : R.Takes n i → s.Shows table name n ⟨R.settled,
      R.records.note name R.outcome, R.after,
      Allowing ((i, .waking R.outcome) :: R.known) R.Stays⟩ → Underway table name n s

/-- The caller who has made the attempt is answered, and the others are awake. -/
def Passed (table : Table σ) (name : String) (n : Nat) (s : Callers σ) (i : Nat) : Prop :=
  R.Takes n i ∧ s.Shows table name n ⟨R.settled, R.records.note name R.outcome, R.after,
    Allowing ((i, .answered R.outcome) :: R.known) R.Wakes⟩

section Steps

variable {R} {table : Table σ} {name : String} {n first i j : Nat} {symbol : Symbol σ}
  {s t : Callers σ} {phase : Phase} {rest : Phase → Prop}

theorem allowing_of_ne {lead : Phase} (hi : R.known.lookup i = none) (hne : i ≠ j)
    (hrest : rest phase) : Allowing ((j, lead) :: R.known) rest i phase :=
  (allowing_cons_of_ne hne).mpr ((allowing_of_lookup hi).mpr hrest)

/-- Who comes to wait for the attempt has fewer steps ahead. -/
theorem Fits.stepsAhead_asleep (hR : R.Fits name symbol n first) :
    (Phase.asleep R.attempt).stepsAhead first < (Phase.looking R.waited).stepsAhead first := by
  rcases hR.order with ⟨hattempt, hwaited, -⟩ | ⟨hattempt, hwaited, -⟩ <;>
    simp [Phase.stepsAhead, hattempt, hwaited]

theorem Fits.stepsAhead_resolving (hR : R.Fits name symbol n first) :
    (Phase.resolving R.attempt).stepsAhead first < (Phase.looking R.waited).stepsAhead first := by
  rcases hR.order with ⟨-, hwaited, -⟩ | ⟨-, hwaited, -⟩ <;> simp [Phase.stepsAhead, hwaited]

/-- Before the attempt begins, somebody comes to look at the slot, or begins it. -/
theorem Fits.gathered_step (hR : R.Fits name symbol n first)
    (hsymbol : table.get? name = some symbol)
    (hs : s.Shows table name n ⟨R.slot, R.records, R.before, Allowing R.known R.Late⟩)
    (h : s.Moves i name phase t) (hi : s.callers[i]? = some ⟨name, phase⟩) :
    R.Underway table name n t ∧ t.stepsAhead first < s.stepsAhead first := by
  obtain ⟨hnone, ⟨rfl, hwaited⟩ | rfl⟩ := hR.answered.rest_of_moves (hs.allows i _ hi).2 h
  · cases h with
    | refuse hrefuse => simp [hs.table_eq, hsymbol] at hrefuse
    | enter =>
      have hnext : Allowing R.known R.Late i (.looking none) :=
        (allowing_of_lookup hnone).mpr (.inr (by rw [hwaited]))
      exact (hs.enter hi hnext first).imp_left .gathered
  · have hlook : (s.cache.slot name).look R.waited = .begin R.attempt := by
      rw [hs.slot_eq]
      exact hR.look_eq
    cases h with
    | answer h => cases hlook.symm.trans h
    | wait h => cases hlook.symm.trans h
    | begin h =>
      cases hlook.symm.trans h
      refine ⟨.begun i ⟨hs.lt hi, hnone⟩
        (hs.move hi rfl ?_ hs.records_eq hs.world_eq (allowing_cons_self.mpr rfl) ?_),
        Callers.stepsAhead_move hi hR.stepsAhead_resolving⟩
      · rw [Cache.slot_begin, if_pos rfl]
        rfl
      · intro j c hne _ hallows
        exact (allowing_cons_of_ne hne).mpr (hallows.mono .inl)

/-- While the attempt is under way, somebody else comes to look at the slot, or to wait. -/
theorem Fits.busy_step (hR : R.Fits name symbol n first) (hsymbol : table.get? name = some symbol)
    {records : Records} {world : World σ} {lead : Phase}
    (hs : s.Shows table name n ⟨R.busy, records, world, Allowing ((j, lead) :: R.known) rest⟩)
    (h : s.Moves i name phase t) (hi : s.callers[i]? = some ⟨name, phase⟩) (hne : i ≠ j)
    (hlate : ∀ p, rest p → R.Late p ∨ p = .asleep R.attempt ∨ ∃ x, p = .answered x)
    (hjoin : ∀ p q, rest p → R.Late p → R.Joins q → rest q) :
    t.Shows table name n ⟨R.busy, records, world, Allowing ((j, lead) :: R.known) rest⟩ ∧
      t.stepsAhead first < s.stepsAhead first := by
  have hallows := (hs.allows i _ hi).2
  obtain ⟨hnone, hrest⟩ := hR.answered.rest_of_moves ((allowing_cons_of_ne hne).mp hallows) h
  rcases hlate phase hrest with hlate | rfl | ⟨x, rfl⟩
  · have hnext : ∀ q, R.Joins q → Allowing ((j, lead) :: R.known) rest i q := fun q hq =>
      allowing_of_ne hnone hne (hjoin phase q hrest hlate hq)
    rcases hlate with ⟨rfl, hwaited⟩ | rfl
    · cases h with
      | refuse hrefuse => simp [hs.table_eq, hsymbol] at hrefuse
      | enter => exact hs.enter hi (hnext _ (.inl (.inr (by rw [hwaited])))) first
    · have hlook : (s.cache.slot name).look R.waited = .wait R.attempt := by
        rw [hs.slot_eq]
        rfl
      cases h with
      | answer h => cases hlook.symm.trans h
      | wait h =>
        cases hlook.symm.trans h
        exact ⟨hs.move hi rfl hs.slot_eq hs.records_eq hs.world_eq (hnext _ (.inr rfl))
          fun _ _ _ _ h => h, Callers.stepsAhead_move hi hR.stepsAhead_asleep⟩
      | begin h => cases hlook.symm.trans h
  · cases h
  · cases h

theorem stays_cases (h : R.Stays phase) :
    R.Late phase ∨ phase = .asleep R.attempt ∨ ∃ x, phase = .answered x := by
  rcases h with h | ⟨-, h | h⟩
  · exact .inr (.inl h)
  · exact .inl h
  · exact .inr (.inr ⟨_, h⟩)

/-- Only an attempt that comes to a value can leave somebody late. -/
theorem stays_of_late {q : Phase} (h : R.Stays phase) (hlate : R.Late phase) (hq : R.Joins q) :
    R.Stays q := by
  rcases h with rfl | ⟨hvalue, -⟩
  · rcases hlate with ⟨h, -⟩ | h <;> cases h
  · exact hq.symm.imp_right fun hq => ⟨hvalue, .inl hq⟩

theorem Fits.begun_step (hR : R.Fits name symbol n first) (hsymbol : table.get? name = some symbol)
    (hj : R.Takes n j) (hs : s.Shows table name n ⟨R.busy, R.records, R.before,
      Allowing ((j, .resolving R.attempt) :: R.known) R.Joins⟩)
    (hmay : s.MayStep first i) (h : s.Moves i name phase t)
    (hi : s.callers[i]? = some ⟨name, phase⟩) :
    R.Underway table name n t ∧ t.stepsAhead first < s.stepsAhead first := by
  by_cases hij : i = j
  · subst hij
    obtain rfl := allowing_cons_self.mp (hs.allows i _ hi).2
    cases h with
    | @conclude _ found hfound =>
      obtain rfl : symbol = found := by
        rw [hs.table_eq, hsymbol] at hfound
        exact Option.some.inj hfound
      have hresolve : symbol.resolve name s.world = (R.outcome, R.after) := by
        rw [hs.world_eq]
        exact hR.resolve_eq
      rw [hresolve]
      refine ⟨.concluded i hj (hs.move hi rfl hs.slot_eq hs.records_eq rfl
        (allowing_cons_self.mpr rfl) ?_), Callers.stepsAhead_move hi (Nat.lt_succ_self 3)⟩
      intro l c hne hl hallows
      have hothers := (allowing_cons_of_ne hne).mp hallows
      refine (allowing_cons_of_ne hne).mpr ?_
      -- The first attempt was held open until all others waited for it.
      rcases hR.order with ⟨hattempt, -, hknown⟩ | ⟨-, -, hvalue⟩
      · rw [hknown, allowing_nil]
        exact .inl (hattempt ▸ hmay name (hattempt ▸ hi) l c hne hl)
      · exact hothers.mono fun hjoins => hjoins.symm.imp_right fun hlate => ⟨hvalue, .inl hlate⟩
    | lose hlose => simp [hs.table_eq, hsymbol] at hlose
  · obtain ⟨ht, hless⟩ := hR.busy_step hsymbol hs h hi hij (fun p hp => hp.imp_right .inl)
      fun p q _ _ hq => hq
    exact ⟨.begun j hj ht, hless⟩

/-- What is known of those who do not make the attempt stays known when its caller goes on. -/
theorem allowing_swap {lead lead' : Phase} (l : Nat) (c : Caller) (hne : l ≠ i)
    (h : Allowing ((i, lead) :: R.known) rest l c.phase) :
    Allowing ((i, lead') :: R.known) rest l c.phase :=
  (allowing_cons_of_ne hne).mpr ((allowing_cons_of_ne hne).mp h)

theorem Fits.concluded_step (hR : R.Fits name symbol n first)
    (hsymbol : table.get? name = some symbol) (hj : R.Takes n j)
    (hs : s.Shows table name n ⟨R.busy, R.records, R.after,
      Allowing ((j, .recording R.attempt R.outcome) :: R.known) R.Stays⟩)
    (h : s.Moves i name phase t) (hi : s.callers[i]? = some ⟨name, phase⟩) :
    R.Underway table name n t ∧ t.stepsAhead first < s.stepsAhead first := by
  by_cases hij : i = j
  · subst hij
    obtain rfl := allowing_cons_self.mp (hs.allows i _ hi).2
    cases h with
    | record =>
      refine ⟨.recorded i hj (hs.move hi (Cache.table_record _ _ _) ?_ ?_ hs.world_eq
        (allowing_cons_self.mpr rfl) fun l c hne _ => allowing_swap l c hne),
        Callers.stepsAhead_move hi (Nat.lt_succ_self 2)⟩
      · rw [Cache.slot_record]
        exact hs.slot_eq
      · rw [Cache.records_record, hs.records_eq]
  · obtain ⟨ht, hless⟩ := hR.busy_step hsymbol hs h hi hij (fun p => stays_cases)
      fun p q => stays_of_late
    exact ⟨.concluded j hj ht, hless⟩

theorem Fits.recorded_step (hR : R.Fits name symbol n first)
    (hsymbol : table.get? name = some symbol) (hj : R.Takes n j)
    (hs : s.Shows table name n ⟨R.busy, R.records.note name R.outcome, R.after,
      Allowing ((j, .publishing R.attempt R.outcome) :: R.known) R.Stays⟩)
    (h : s.Moves i name phase t) (hi : s.callers[i]? = some ⟨name, phase⟩) :
    R.Underway table name n t ∧ t.stepsAhead first < s.stepsAhead first := by
  by_cases hij : i = j
  · subst hij
    obtain rfl := allowing_cons_self.mp (hs.allows i _ hi).2
    cases h with
    | publish =>
      refine ⟨.published i hj (hs.move hi rfl ?_ hs.records_eq hs.world_eq
        (allowing_cons_self.mpr rfl) fun l c hne _ => allowing_swap l c hne),
        Callers.stepsAhead_move hi (Nat.lt_succ_self 1)⟩
      rw [Cache.slot_publish, if_pos rfl, hs.slot_eq]
      rfl
  · obtain ⟨ht, hless⟩ := hR.busy_step hsymbol hs h hi hij (fun p => stays_cases)
      fun p q => stays_of_late
    exact ⟨.recorded j hj ht, hless⟩

/-- Those who have waited for the attempt are awake after the waking. -/
theorem wakes_of_stays (h : R.Stays phase) : R.Wakes (Caller.wake name ⟨name, phase⟩).phase := by
  rcases h with rfl | h
  · exact .inl (by simp [Caller.wake])
  · have hawake : Caller.wake name ⟨name, phase⟩ = ⟨name, phase⟩ := by
      rcases h.2 with (⟨rfl, -⟩ | rfl) | rfl <;> simp [Caller.wake]
    rw [hawake]
    exact .inr h

/-- When the outcome is published, who benefits from it gets the value as soon as it looks. The
caller who has made the attempt wakes the others. -/
theorem Fits.published_step (hR : R.Fits name symbol n first)
    (hsymbol : table.get? name = some symbol) (hj : R.Takes n j)
    (hs : s.Shows table name n ⟨R.settled, R.records.note name R.outcome, R.after,
      Allowing ((j, .waking R.outcome) :: R.known) R.Stays⟩)
    (h : s.Moves i name phase t) (hi : s.callers[i]? = some ⟨name, phase⟩) :
    (R.Underway table name n t ∨ ∃ i, R.Passed table name n t i) ∧
      t.stepsAhead first < s.stepsAhead first := by
  by_cases hij : i = j
  · subst hij
    obtain rfl := allowing_cons_self.mp (hs.allows i _ hi).2
    cases h with
    | wake =>
      refine ⟨.inr ⟨i, hj, hs.wake hi rfl rfl rfl (allowing_cons_self.mpr rfl) ?_⟩,
        Callers.stepsAhead_wake hi⟩
      intro l p hne hallows
      have hothers := (allowing_cons_of_ne hne).mp hallows
      refine (allowing_cons_of_ne hne).mpr ?_
      cases hlookup : R.known.lookup l with
      | none =>
        exact (allowing_of_lookup hlookup).mpr
          (wakes_of_stays ((allowing_of_lookup hlookup).mp hothers))
      | some q =>
        simp only [Allowing, hlookup] at hothers ⊢
        obtain ⟨x, rfl⟩ := hR.answered l q hlookup
        subst hothers
        simp [Caller.wake]
  · have hallows := (hs.allows i _ hi).2
    obtain ⟨hnone, hrest⟩ := hR.answered.rest_of_moves ((allowing_cons_of_ne hij).mp hallows) h
    have hnext : ∀ q, R.Stays q → Allowing ((j, .waking R.outcome) :: R.known) R.Stays i q :=
      fun q => allowing_of_ne hnone hij
    obtain rfl | ⟨⟨v, hv⟩, (⟨rfl, hwaited⟩ | rfl) | rfl⟩ := hrest
    · cases h
    · cases h with
      | refuse hrefuse => simp [hs.table_eq, hsymbol] at hrefuse
      | enter =>
        have hlooks := hnext (.looking none) (.inr ⟨⟨v, hv⟩, .inl (.inr (by rw [hwaited]))⟩)
        exact (hs.enter hi hlooks first).imp_left fun ht => .inl (.published j hj ht)
    · have hlook : (s.cache.slot name).look R.waited = .answer (.ok v) := by
        rw [hs.slot_eq]
        simp [settled, hv, SlotState.settled, Slot.look]
      cases h with
      | answer h =>
        cases hlook.symm.trans h
        refine ⟨.inl (.published j hj (hs.move hi rfl hs.slot_eq hs.records_eq hs.world_eq
          (hnext _ (.inr ⟨⟨v, hv⟩, .inr ?_⟩)) fun _ _ _ _ h => h)),
          Callers.stepsAhead_move hi ?_⟩
        · rw [hv]
          rfl
        · rcases hR.order with ⟨-, hwaited, -⟩ | ⟨-, hwaited, -⟩ <;>
            simp [Phase.stepsAhead, hwaited]
      | wait h => cases hlook.symm.trans h
      | begin h => cases hlook.symm.trans h
    · cases h

theorem Underway.exists_moves (hs : R.Underway table name n s) (hstep : s.step? i = some t) :
    ∃ phase, s.callers[i]? = some ⟨name, phase⟩ ∧ s.Moves i name phase t := by
  cases hs with
  | gathered hs | begun _ _ hs | concluded _ _ hs | recorded _ _ hs | published _ _ hs =>
    exact hs.exists_moves hstep

/-- Every step takes the callers on with the attempt, or past it. -/
theorem Fits.step (hR : R.Fits name symbol n first) (hsymbol : table.get? name = some symbol)
    (hs : R.Underway table name n s) (hmay : s.MayStep first i) (hstep : s.step? i = some t) :
    (R.Underway table name n t ∨ ∃ i, R.Passed table name n t i) ∧
      t.stepsAhead first < s.stepsAhead first := by
  obtain ⟨phase, hi, h⟩ := hs.exists_moves hstep
  cases hs with
  | gathered hs => exact (hR.gathered_step hsymbol hs h hi).imp_left .inl
  | begun j hj hs => exact (hR.begun_step hsymbol hj hs hmay h hi).imp_left .inl
  | concluded j hj hs => exact (hR.concluded_step hsymbol hj hs h hi).imp_left .inl
  | recorded j hj hs => exact (hR.recorded_step hsymbol hj hs h hi).imp_left .inl
  | published j hj hs => exact hR.published_step hsymbol hj hs h hi

/-- Before the attempt is over, somebody can make a step. -/
theorem Fits.not_finished (hR : R.Fits name symbol n first) (hs : R.Underway table name n s) :
    ¬s.Finished first := by
  have hlate : ∀ {i : Nat} {p : Phase}, s.callers[i]? = some ⟨name, p⟩ → R.Late p →
      ¬s.Finished first := by
    rintro i p hi (⟨rfl, -⟩ | rfl) <;>
      exact Callers.not_finished hi (by simp) (by simp) (Callers.mayStep_of_ne hi (by simp))
  cases hs with
  | gathered hs =>
    obtain ⟨i, hlt, hnone⟩ := hR.exists_takes
    obtain ⟨p, hi, hallows⟩ := hs.exists_phase hlt
    exact hlate hi ((allowing_of_lookup hnone).mp hallows)
  | begun i hi hs =>
    obtain ⟨p, hi, hallows⟩ := hs.exists_phase hi.1
    obtain rfl := allowing_cons_self.mp hallows
    have hleads : s.MayStep first i → ¬s.Finished first :=
      Callers.not_finished hi (by simp) (by simp)
    rcases hR.order with ⟨hattempt, -, hknown⟩ | ⟨hattempt, -, -⟩
    · by_cases hall : ∀ (j : Nat) (c : Caller), j ≠ i → s.callers[j]? = some c →
          c.phase = .asleep first
      · exact hleads fun _ _ => hall
      · simp only [Classical.not_forall] at hall
        obtain ⟨j, ⟨asked, p⟩, hne, hj, hawake⟩ := hall
        obtain ⟨rfl, hallows⟩ := hs.allows j _ hj
        have hjoins := (allowing_cons_of_ne hne).mp hallows
        rw [hknown, allowing_nil] at hjoins
        exact hlate hj (hjoins.resolve_right (hattempt ▸ hawake))
    · exact hleads (Callers.mayStep_of_ne hi (by simp [hattempt]))
  | concluded i hi hs | recorded i hi hs | published i hi hs =>
    obtain ⟨p, hi, hallows⟩ := hs.exists_phase hi.1
    obtain rfl := allowing_cons_self.mp hallows
    exact Callers.not_finished hi (by simp) (by simp) (Callers.mayStep_of_ne hi (by simp))

end Steps

end Round

end FilterLang
