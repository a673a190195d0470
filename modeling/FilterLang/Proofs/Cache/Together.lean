import FilterLang.Proofs.Cache.Requests
import FilterLang.Proofs.Cache.Schedule
import Mathlib.Logic.Function.Basic

/-! The sequential account of callers who ask for one name at the same time is one of the schedules.
In the first turns the first caller begins the attempt and all others come to wait for it; in the
second turns the first caller brings it to its outcome, and each of the others gets an answer, if it
must by an attempt of its own. Nobody is left with a step to make. -/

namespace FilterLang

variable {σ : Type}

namespace Callers

/-- Callers who ask a cache for one name at the same time, before the first step. -/
def asking (n : Nat) (name : String) (c : Cache σ) (w : World σ) : Callers σ :=
  ⟨c, w, .replicate n ⟨name, .arriving⟩⟩

/-! ### Turns -/

/-- The turn of a caller is part of a schedule, and afterwards the property holds. -/
def TurnTo (first : Nat) (s : Callers σ) (i steps : Nat) (P : Callers σ → Prop) : Prop :=
  (∃ schedule, Schedule first s schedule (s.advance i steps)) ∧ P (s.advance i steps)

section Turns

variable {s t : Callers σ} {first i steps : Nat} {name : String} {phase : Phase}
  {P : Callers σ → Prop}

theorem turnTo_zero (h : P s) : s.TurnTo first i 0 P := ⟨⟨[], .done⟩, h⟩

theorem turnTo_answered {result : Except Failure Value}
    (hi : s.callers[i]? = some ⟨name, .answered result⟩) (h : P s) : s.TurnTo first i steps P := by
  rw [TurnTo, advance_of_answered hi]
  exact ⟨⟨[], .done⟩, h⟩

theorem turnTo_moves (hi : s.callers[i]? = some ⟨name, phase⟩) (hmay : s.MayStep first i)
    (h : s.Moves i name phase t) (ht : t.TurnTo first i steps P) :
    s.TurnTo first i (steps + 1) P := by
  have hstep := step?_of_moves hi h
  obtain ⟨⟨schedule, hschedule⟩, hP⟩ := ht
  rw [TurnTo, advance_succ hstep]
  exact ⟨⟨i :: schedule, .step hmay hstep hschedule⟩, hP⟩

theorem Schedule.append {u : Callers σ} {schedule later : List Nat}
    (h : Schedule first s schedule t) (hlater : Schedule first t later u) :
    Schedule first s (schedule ++ later) u := by
  induction h with
  | done => exact hlater
  | step hmay hstep _ ih => exact .step hmay hstep (ih hlater)

theorem round_succ (s : Callers σ) (steps count : Nat) :
    s.round steps (count + 1) = (s.round steps count).advance count steps := by
  rw [round, List.range_succ, List.foldl_append]
  rfl

/-- Turns one after the other, each of which takes a property on, are a schedule. -/
theorem exists_schedule_round {P : Nat → Callers σ → Prop} {count : Nat} (hs : P 0 s)
    (h : ∀ j s, j < count → P j s → s.TurnTo first j steps (P (j + 1))) :
    (∃ schedule, Schedule first s schedule (s.round steps count)) ∧
      P count (s.round steps count) := by
  induction count with
  | zero => exact ⟨⟨[], .done⟩, hs⟩
  | succ count ih =>
    obtain ⟨⟨schedule, hschedule⟩, hP⟩ := ih fun j s hj => h j s (Nat.lt_succ_of_lt hj)
    obtain ⟨⟨schedule', hschedule'⟩, hP'⟩ := h count _ (Nat.lt_succ_self count) hP
    rw [round_succ]
    exact ⟨⟨_, hschedule.append hschedule'⟩, hP'⟩

end Turns

section

variable {s : Callers σ} {table : Table σ} {name : String} {n first i k steps : Nat}
  {slot slot' : Slot} {records : Records} {world world' : World σ} {cache : Cache σ}
  {Allows Allows' : Nat → Phase → Prop} {old phase : Phase} {symbol : Symbol σ}
  {P : Callers σ → Prop}

/-- A step in a turn that wakes nobody: the phase of its caller is known, and of the others as much
as before. -/
theorem Shows.turnTo_goes (hs : s.Shows table name n ⟨slot, records, world, Allows⟩)
    (hi : s.callers[i]? = some ⟨name, old⟩) (hmay : s.MayStep first i)
    (h : s.Moves i name old (Callers.move ⟨cache, world', s.callers⟩ i phase))
    (hslot : cache.slot name = slot')
    (hnext : ∀ (t : Callers σ) (records : Records) (world : World σ),
      t.callers[i]? = some ⟨name, phase⟩ →
      t.Shows table name n ⟨slot', records, world, Function.update Allows i (· = phase)⟩ →
      t.TurnTo first i steps P) : s.TurnTo first i (steps + 1) P := by
  have hmoved := getElem?_move_self (s := ⟨cache, world', s.callers⟩) hi phase
  refine turnTo_moves hi hmay h (hnext _ cache.records world' hmoved ?_)
  refine hs.move hi h.table_eq hslot rfl rfl (by simp) fun j c hne _ hallows => ?_
  simpa only [Function.update_of_ne hne] using hallows

/-- Who comes to look at the slot finds it as it is. -/
theorem Shows.turnTo_enter (hs : s.Shows table name n ⟨slot, records, world, Allows⟩)
    (hi : s.callers[i]? = some ⟨name, .arriving⟩) (hsome : (table.get? name).isSome)
    (hnext : ∀ (t : Callers σ) (records : Records) (world : World σ),
      t.callers[i]? = some ⟨name, .looking none⟩ →
      t.Shows table name n ⟨slot, records, world, Function.update Allows i (· = .looking none)⟩ →
      t.TurnTo first i steps P) : s.TurnTo first i (steps + 1) P :=
  hs.turnTo_goes hi (mayStep_of_ne hi (by simp)) (.enter (hs.table_eq ▸ hsome))
    ((Cache.slot_setSlot _ _ _ _).trans ((if_pos rfl).trans hs.slot_eq)) hnext

/-- The rest of a turn of a caller that makes an attempt: it brings it to its outcome and wakes
those who wait. -/
theorem Shows.turnTo_attempt (hs : s.Shows table name n ⟨slot, records, world, Allows⟩)
    (hi : s.callers[i]? = some ⟨name, .resolving k⟩) (hmay : s.MayStep first i)
    (hsymbol : table.get? name = some symbol) (hanswered : ∀ x, Allows' i (.answered x))
    (hwake : ∀ j p, j ≠ i → Allows j p → Allows' j (Caller.wake name ⟨name, p⟩).phase)
    (hP : ∀ (t : Callers σ) (outcome : Except Failure Value) (records : Records) (world : World σ),
      t.Shows table name n ⟨⟨slot.attempts, .settled k outcome⟩, records, world, Allows'⟩ → P t) :
    s.TurnTo first i (steps + 4) P := by
  have hfound : s.cache.table.get? name = some symbol := hs.table_eq ▸ hsymbol
  refine hs.turnTo_goes hi hmay (.conclude hfound) hs.slot_eq fun t _ _ hi hs => ?_
  generalize (symbol.resolve name _).1 = outcome at hi hs
  refine hs.turnTo_goes hi (mayStep_of_ne hi (by simp)) .record
    ((Cache.slot_record _ _ _ _).trans hs.slot_eq) fun t _ _ hi hs => ?_
  have hsettled : (t.cache.publish name k outcome).slot name =
      ⟨slot.attempts, .settled k outcome⟩ := by
    rw [Cache.slot_publish, if_pos rfl, hs.slot_eq]
  refine hs.turnTo_goes hi (mayStep_of_ne hi (by simp)) .publish hsettled
    fun t records world hi hs => ?_
  refine turnTo_moves hi (mayStep_of_ne hi (by simp)) .wake ?_
  have hdone := getElem?_move_self
    (s := { t with callers := t.callers.map (Caller.wake name) }) (getElem?_wake hi (by simp) name)
    (.answered outcome)
  refine turnTo_answered hdone (hP _ outcome records world ?_)
  refine hs.wake hi rfl rfl rfl (hanswered outcome) fun j p hne hallows => hwake j p hne ?_
  simpa only [Function.update_of_ne hne] using hallows

end

/-- The condition that the callers in front of a place have had their turn, and the others have
not. -/
def Halfway (Had : Nat → Phase → Prop) (Rest : Phase → Prop) (j i : Nat) (phase : Phase) : Prop :=
  if i < j then Had i phase else Rest phase

section Halfway

variable {s : Callers σ} {table : Table σ} {name : String} {n i j : Nat} {slot : Slot}
  {records : Records} {world : World σ} {Had : Nat → Phase → Prop} {Rest : Phase → Prop}
  {phase : Phase}

theorem halfway_self : Halfway Had Rest j j phase ↔ Rest phase := by simp [Halfway]

theorem halfway_succ_self : Halfway Had Rest (j + 1) j phase ↔ Had j phase := by simp [Halfway]

theorem halfway_succ_of_ne (h : i ≠ j) :
    Halfway Had Rest (j + 1) i phase ↔ Halfway Had Rest j i phase := by
  have hlt : i < j + 1 ↔ i < j := by omega
  simp only [Halfway, hlt]

/-- Who comes next has not had its turn. -/
theorem Shows.exists_next (hs : s.Shows table name n ⟨slot, records, world, Halfway Had Rest j⟩)
    (hj : j < n) : ∃ phase, s.callers[j]? = some ⟨name, phase⟩ ∧ Rest phase := by
  obtain ⟨phase, hi, hallows⟩ := hs.exists_phase hj
  exact ⟨phase, hi, halfway_self.mp hallows⟩

theorem Shows.halfway_succ (hs : s.Shows table name n
      ⟨slot, records, world, Function.update (Halfway Had Rest j) j (· = phase)⟩)
    (h : Had j phase) : s.Shows table name n ⟨slot, records, world, Halfway Had Rest (j + 1)⟩ := by
  refine hs.mono fun i p _ hallows => ?_
  by_cases hij : i = j
  · subst hij
    obtain rfl : p = phase := by simpa using hallows
    exact halfway_succ_self.mpr h
  · exact (halfway_succ_of_ne hij).mpr (by simpa only [Function.update_of_ne hij] using hallows)

end Halfway

/-! ### The first turns -/

theorem shows_asking {c : Cache σ} {w : World σ} {name : String} {n : Nat}
    {Allows : Nat → Phase → Prop} (h : ∀ i, Allows i .arriving) :
    (asking n name c w).Shows c.table name n ⟨c.slot name, c.records, w, Allows⟩ where
  table_eq := rfl
  slot_eq := rfl
  records_eq := rfl
  world_eq := rfl
  length_eq := List.length_replicate
  allows i caller hi := by
    obtain rfl := List.eq_of_mem_replicate (List.mem_of_getElem? hi)
    exact ⟨rfl, h i⟩

/-- In their first turn, callers get an answer. -/
def Serving (j : Nat) : Nat → Phase → Prop :=
  Halfway (fun _ p => ∃ x, p = .answered x) (· = .arriving) j

/-- In their first turn, the first caller begins the attempt, and the others come to wait for it. -/
def Gathering (first j : Nat) : Nat → Phase → Prop :=
  Halfway (fun i p => p = if i = 0 then .resolving first else .asleep first) (· = .arriving) j

section FirstTurns

variable {s : Callers σ} {table : Table σ} {name : String} {n first j : Nat} {slot : Slot}
  {records : Records} {world : World σ}

/-- Who has its answer as soon as it looks has it after its first turn. -/
theorem Shows.turnTo_serving (hs : s.Shows table name n ⟨slot, records, world, Serving j⟩)
    (hj : j < n) (h : table.get? name = none ∨
      (table.get? name).isSome ∧ ∃ result, slot.look none = .answer result) :
    s.TurnTo first j 2 fun t =>
      ∃ records world, t.Shows table name n ⟨slot, records, world, Serving (j + 1)⟩ := by
  obtain ⟨_, hi, rfl⟩ := hs.exists_next hj
  rcases h with hnone | ⟨hsome, result, hlook⟩
  · refine hs.turnTo_goes hi (mayStep_of_ne hi (by simp)) (.refuse (hs.table_eq ▸ hnone))
      hs.slot_eq fun t records world hi hs => ?_
    exact turnTo_answered hi ⟨records, world, hs.halfway_succ ⟨_, rfl⟩⟩
  · refine hs.turnTo_enter hi hsome fun t records world hi hs => ?_
    have hlook' : (t.cache.slot name).look none = .answer result := by rwa [hs.slot_eq]
    refine hs.turnTo_goes hi (mayStep_of_ne hi (by simp)) (.answer hlook') hs.slot_eq
      fun t records world hi hs => ?_
    rw [Function.update_idem] at hs
    exact turnTo_zero ⟨records, world, hs.halfway_succ ⟨_, rfl⟩⟩

/-- Otherwise the first caller begins the attempt in its first turn, and all others come to wait. -/
theorem Shows.turnTo_gathering (hs : s.Shows table name n
      ⟨if j = 0 then slot else ⟨first, .resolving first⟩, records, world, Gathering first j⟩)
    (hj : j < n) (hsome : (table.get? name).isSome) (hlook : slot.look none = .begin first) :
    s.TurnTo first j 2 fun t => ∃ records world, t.Shows table name n
      ⟨⟨first, .resolving first⟩, records, world, Gathering first (j + 1)⟩ := by
  obtain ⟨_, hi, rfl⟩ := hs.exists_next hj
  refine hs.turnTo_enter hi hsome fun t records world hi hs => ?_
  by_cases hzero : j = 0
  · simp only [if_pos hzero] at hs
    have hbegin : (t.cache.slot name).look none = .begin first := by rwa [hs.slot_eq]
    refine hs.turnTo_goes hi (mayStep_of_ne hi (by simp)) (.begin hbegin)
      ((Cache.slot_begin _ _ _ _).trans (if_pos rfl)) fun t records world hi hs => ?_
    rw [Function.update_idem] at hs
    exact turnTo_zero ⟨records, world, hs.halfway_succ (if_pos hzero).symm⟩
  · simp only [if_neg hzero] at hs
    have hwait : (t.cache.slot name).look none = .wait first := by
      rw [hs.slot_eq]
      rfl
    refine hs.turnTo_goes hi (mayStep_of_ne hi (by simp)) (.wait hwait) hs.slot_eq
      fun t records world hi hs => ?_
    rw [Function.update_idem] at hs
    exact turnTo_zero ⟨records, world, hs.halfway_succ (if_neg hzero).symm⟩

end FirstTurns

/-! ### The second turns -/

/-- In their second turn, callers who wait for nothing get an answer. -/
def Finishing (j : Nat) : Nat → Phase → Prop :=
  Halfway (fun _ p => ∃ x, p = .answered x) (fun p => ∃ waited, p = .looking waited) j

/-- What holds between the second turns. -/
inductive Settling (table : Table σ) (name : String) (n first : Nat) : Nat → Callers σ → Prop
  | gathered {s : Callers σ} {records : Records} {world : World σ} :
    s.Shows table name n ⟨⟨first, .resolving first⟩, records, world, Gathering first n⟩ →
    Settling table name n first 0 s
  | idle {j : Nat} {s : Callers σ} {slot : Slot} {records : Records} {world : World σ} :
    s.Shows table name n ⟨slot, records, world, Finishing j⟩ →
    (∀ k, slot.state ≠ .resolving k) → first ≤ slot.attempts → Settling table name n first j s

section SecondTurns

variable {s : Callers σ} {table : Table σ} {name : String} {n first j : Nat} {symbol : Symbol σ}

theorem wake_of_finishing {i : Nat} {phase : Phase} (h : Finishing j i phase) :
    Caller.wake name ⟨name, phase⟩ = ⟨name, phase⟩ := by
  unfold Finishing Halfway at h
  split at h <;> obtain ⟨_, rfl⟩ := h <;> simp [Caller.wake]

/-- Whoever has its second turn is answered at the end of it. -/
theorem Settling.turnTo (hs : Settling table name n first j s)
    (hsymbol : table.get? name = some symbol) (hj : j < n) :
    s.TurnTo first j 6 (Settling table name n first (j + 1)) := by
  cases hs with
  | @gathered _ records world hs =>
    have hs : s.Shows table name n ⟨⟨first, .resolving first⟩, records, world,
        fun i p => p = if i = 0 then .resolving first else .asleep first⟩ :=
      hs.mono fun i p hi hallows => by simpa [Gathering, Halfway, hi] using hallows
    obtain ⟨_, hi, rfl⟩ := hs.exists_phase hj
    have hmay : s.MayStep first 0 := fun _ _ i c hne hi =>
      ((hs.allows i c hi).2).trans (if_neg hne)
    refine hs.turnTo_attempt hi hmay hsymbol (fun x => halfway_succ_self.mpr ⟨x, rfl⟩)
      (fun i p hne hallows => ?_) fun t outcome records world ht =>
        .idle ht (SlotState.settled_ne_resolving first · outcome) (Nat.le_refl first)
    obtain rfl : p = .asleep first := hallows.trans (if_neg hne)
    refine (halfway_succ_of_ne hne).mpr ?_
    simp [Halfway, Caller.wake]
  | @idle _ _ slot _ _ hs hfree hattempts =>
    obtain ⟨_, hi, waited, rfl⟩ := hs.exists_next hj
    cases hlook : slot.look waited with
    | answer result =>
      have hanswer : (s.cache.slot name).look waited = .answer result := by rwa [hs.slot_eq]
      refine hs.turnTo_goes hi (mayStep_of_ne hi (by simp)) (.answer hanswer) hs.slot_eq
        fun t records world hi hs => ?_
      exact turnTo_answered hi (.idle (hs.halfway_succ ⟨_, rfl⟩) hfree hattempts)
    | wait k => exact absurd (Slot.look_eq_wait hlook) (hfree k)
    | begin k =>
      have hbegin : (s.cache.slot name).look waited = .begin k := by rwa [hs.slot_eq]
      have hk : first < k := by
        have := (Slot.look_eq_begin hlook).1
        omega
      refine hs.turnTo_goes hi (mayStep_of_ne hi (by simp)) (.begin hbegin)
        ((Cache.slot_begin _ _ _ _).trans (if_pos rfl)) fun t records world hi hs => ?_
      refine hs.turnTo_attempt hi (mayStep_of_ne hi (by simp; omega)) hsymbol
        (fun x => halfway_succ_self.mpr ⟨x, rfl⟩) (fun i p hne hallows => ?_)
        fun t outcome records world ht =>
          .idle ht (SlotState.settled_ne_resolving k · outcome) (Nat.le_of_lt hk)
      rw [Function.update_of_ne hne] at hallows
      rw [wake_of_finishing hallows]
      exact (halfway_succ_of_ne hne).mpr hallows

end SecondTurns

/-! ### Both rounds -/

/-- All callers are answered. -/
def AllDone (s : Callers σ) : Prop :=
  ∀ (i : Nat) (c : Caller), s.callers[i]? = some c → ∃ x, c.phase = .answered x

section Rounds

variable {s : Callers σ} {first : Nat}

theorem AllDone.step?_eq_none (h : s.AllDone) (i : Nat) : s.step? i = none := by
  cases hi : s.callers[i]? with
  | none => simp [step?, hi]
  | some c =>
    obtain ⟨asked, phase⟩ := c
    obtain ⟨x, rfl⟩ := h i _ hi
    simp [step?, hi]

theorem AllDone.finished (h : s.AllDone) (first : Nat) : s.Finished first :=
  fun i _ => h.step?_eq_none i

theorem AllDone.round_eq (h : s.AllDone) (steps count : Nat) : s.round steps count = s := by
  induction count with
  | zero => rfl
  | succ count ih =>
    rw [round_succ, ih, advance_of_none (h.step?_eq_none count)]

theorem Shows.allDone {table : Table σ} {name : String} {n : Nat} {slot : Slot} {records : Records}
    {world : World σ} {Rest : Phase → Prop} (hs : s.Shows table name n
      ⟨slot, records, world, Halfway (fun _ p => ∃ x, p = .answered x) Rest n⟩) : s.AllDone :=
  fun i c hi => by simpa [Halfway, hs.lt hi] using (hs.allows i c hi).2

variable {c : Cache σ} {w : World σ} {name : String} {n : Nat}

theorem exists_schedule_serving (h : c.table.get? name = none ∨
      (c.table.get? name).isSome ∧ ∃ result, (c.slot name).look none = .answer result) :
    (∃ schedule, Schedule first (asking n name c w) schedule ((asking n name c w).round 2 n)) ∧
      ((asking n name c w).round 2 n).AllDone := by
  let P : Nat → Callers σ → Prop := fun j s =>
    ∃ records world, s.Shows c.table name n ⟨c.slot name, records, world, Serving j⟩
  have hstart : P 0 (asking n name c w) :=
    ⟨_, _, shows_asking fun i => by simp [Serving, Halfway]⟩
  have hturn : ∀ j s, j < n → P j s → s.TurnTo first j 2 (P (j + 1)) := by
    rintro j s hj ⟨records, world, hs⟩
    exact hs.turnTo_serving hj h
  obtain ⟨hschedule, records, world, hs⟩ := exists_schedule_round hstart hturn
  exact ⟨hschedule, hs.allDone⟩

theorem exists_schedule_gathering (hn : 0 < n) (hsome : (c.table.get? name).isSome)
    (hlook : (c.slot name).look none = .begin first) :
    (∃ schedule, Schedule first (asking n name c w) schedule ((asking n name c w).round 2 n)) ∧
      ∃ records world, ((asking n name c w).round 2 n).Shows c.table name n
        ⟨⟨first, .resolving first⟩, records, world, Gathering first n⟩ := by
  let P : Nat → Callers σ → Prop := fun j s => ∃ records world, s.Shows c.table name n
    ⟨if j = 0 then c.slot name else ⟨first, .resolving first⟩, records, world, Gathering first j⟩
  have hstart : P 0 (asking n name c w) :=
    ⟨_, _, shows_asking fun i => by simp [Gathering, Halfway]⟩
  have hturn : ∀ j s, j < n → P j s → s.TurnTo first j 2 (P (j + 1)) := by
    rintro j s hj ⟨records, world, hs⟩
    exact hs.turnTo_gathering hj hsome hlook
  obtain ⟨hschedule, records, world, hs⟩ := exists_schedule_round hstart hturn
  rw [if_neg (by omega)] at hs
  exact ⟨hschedule, records, world, hs⟩

/-- The sequential account is a schedule after which all callers are answered. -/
theorem exists_schedule_together (n : Nat) (name : String) (c : Cache σ) (w : World σ)
    (hfree : ∀ k, (c.slot name).state ≠ .resolving k) :
    (∃ schedule, Schedule ((c.slot name).attempts + 1) (asking n name c w) schedule
      (together n name c w)) ∧ (together n name c w).AllDone := by
  have htogether : together n name c w = ((asking n name c w).round 2 n).round 6 n := rfl
  rw [htogether]
  by_cases hserved : c.table.get? name = none ∨
      (c.table.get? name).isSome ∧ ∃ result, (c.slot name).look none = .answer result
  · obtain ⟨hschedule, hdone⟩ := exists_schedule_serving hserved
    rw [hdone.round_eq]
    exact ⟨hschedule, hdone⟩
  · rcases Nat.eq_zero_or_pos n with rfl | hn
    · exact ⟨⟨[], .done⟩, fun i caller hi => by cases hi⟩
    obtain ⟨hknown, hanswer⟩ := not_or.mp hserved
    obtain ⟨symbol, hsymbol⟩ := Option.ne_none_iff_exists'.mp hknown
    have hsome : (c.table.get? name).isSome := hsymbol ▸ rfl
    cases hlook : (c.slot name).look none with
    | answer result => exact absurd ⟨hsome, result, hlook⟩ hanswer
    | wait k => exact absurd (Slot.look_eq_wait hlook) (hfree k)
    | begin k =>
      obtain rfl := (Slot.look_eq_begin hlook).1
      obtain ⟨⟨schedule, hschedule⟩, records, world, hs⟩ :=
        exists_schedule_gathering hn hsome hlook
      obtain ⟨⟨schedule', hschedule'⟩, hdone⟩ := exists_schedule_round
        (P := Settling c.table name n ((c.slot name).attempts + 1)) (.gathered hs)
        fun j s hj hs => hs.turnTo hsymbol hj
      refine ⟨⟨_, hschedule.append hschedule'⟩, ?_⟩
      cases hdone with
      | gathered => exact absurd hn (Nat.lt_irrefl 0)
      | idle hs => exact hs.allDone

end Rounds

end Callers

end FilterLang
