import FilterLang.Proofs.Cache.Wakeups
import Mathlib.Algebra.GroupWithZero.Nat

/-! Schedules: the steps of callers who ask for one name at the same time, in any order. The first
attempt is held open until all other callers wait for it; apart from that whoever has a next step
may make it. What is known of the callers at a moment is a condition for each of them, together with
the slot, the records and the world. A number of steps that each phase has ahead bounds how long a
schedule can go on. -/

namespace FilterLang

variable {σ : Type}

/-- The records of a cache: the used values and the names that have failed. -/
abbrev Records := NameMap Value × NameMap Unit

/-- Writes the outcome of an attempt into the records. -/
def Records.note (name : String) : Except Failure Value → Records → Records
  | .ok v, (used, failed) => (used.insert name v, failed.erase name)
  | .error (.error _), (used, failed) => (used, failed.insert name ())
  | .error .crash, records => records

/-- The records that a cache holds. -/
def Cache.records (c : Cache σ) : Records := (c.used, c.failed)

theorem Cache.records_record (c : Cache σ) (name : String) (outcome : Except Failure Value) :
    (c.record name outcome).records = c.records.note name outcome := by
  rcases outcome with (e | _) | v <;> rfl

/-- How many steps a caller has ahead at most, if the attempt after the first one comes to a value.
Who waits has the steps ahead that it will have when it is woken. -/
def Phase.stepsAhead (first : Nat) : Phase → Nat
  | .arriving => 7
  | .looking none => 6
  | .looking (some k) => if k = first then 5 else 1
  | .asleep k => if k = first then 5 else 1
  | .resolving _ => 4
  | .recording _ _ => 3
  | .publishing _ _ => 2
  | .waking _ => 1
  | .answered _ => 0

theorem Caller.stepsAhead_wake (first : Nat) (name : String) (c : Caller) :
    (c.wake name).phase.stepsAhead first = c.phase.stepsAhead first := by
  obtain ⟨asked, phase⟩ := c
  unfold wake
  split
  · cases phase <;> rfl
  · rfl

theorem sum_map_modify_lt {α : Type} {g : α → Nat} {f : α → α} {l : List α} {i : Nat} {a : α}
    (hi : l[i]? = some a) (h : g (f a) < g a) : ((l.modify i f).map g).sum < (l.map g).sum := by
  induction l generalizing i with
  | nil => cases hi
  | cons b l ih =>
    cases i with
    | zero =>
      obtain rfl : b = a := Option.some.inj hi
      simpa using h
    | succ i =>
      have := ih (i := i) hi
      simp only [List.modify_succ_cons, List.map_cons, List.sum_cons]
      omega

namespace Callers

/-- The caller with a number may make its next step: it does not bring the first attempt to its
outcome before all the others wait for that. -/
def MayStep (first : Nat) (s : Callers σ) (i : Nat) : Prop :=
  ∀ name, s.callers[i]? = some ⟨name, .resolving first⟩ →
    ∀ (j : Nat) (c : Caller), j ≠ i → s.callers[j]? = some c → c.phase = .asleep first

/-- Steps that may be made one after the other, given by the callers who make them, and what they
lead to. -/
inductive Schedule (first : Nat) : Callers σ → List Nat → Callers σ → Prop
  | done {s : Callers σ} : Schedule first s [] s
  | step {s t u : Callers σ} {i : Nat} {later : List Nat} : s.MayStep first i →
      s.step? i = some t → Schedule first t later u → Schedule first s (i :: later) u

/-- No caller may make another step. -/
def Finished (first : Nat) (s : Callers σ) : Prop := ∀ i, s.MayStep first i → s.step? i = none

/-- How many steps the callers have ahead at most. -/
def stepsAhead (first : Nat) (s : Callers σ) : Nat :=
  (s.callers.map fun c => c.phase.stepsAhead first).sum

section Steps

variable {s t : Callers σ} {first i : Nat} {name : String} {old phase : Phase}

/-- What every step keeps that takes the callers on, a schedule keeps, and it is not longer than
the steps that it has used up. -/
theorem Schedule.keeps {P : Callers σ → Prop}
    (h : ∀ s i t, P s → s.MayStep first i → s.step? i = some t →
      P t ∧ t.stepsAhead first < s.stepsAhead first)
    {schedule : List Nat} (hschedule : Schedule first s schedule t) (hs : P s) :
    P t ∧ schedule.length + t.stepsAhead first ≤ s.stepsAhead first := by
  induction hschedule with
  | done => exact ⟨hs, Nat.le_of_eq (Nat.zero_add _)⟩
  | @step s u t i later hmay hstep _ ih =>
    obtain ⟨hu, hless⟩ := h s i u hs hmay hstep
    obtain ⟨ht, hle⟩ := ih hu
    refine ⟨ht, ?_⟩
    rw [List.length_cons]
    omega

theorem mayStep_of_ne (hi : s.callers[i]? = some ⟨name, phase⟩) (hne : phase ≠ .resolving first) :
    s.MayStep first i := by
  intro other hother
  rw [hi] at hother
  cases hother
  exact absurd rfl hne

/-- Where somebody who neither waits nor is answered may step, the schedule goes on. -/
theorem not_finished (hi : s.callers[i]? = some ⟨name, phase⟩) (hasleep : ∀ k, phase ≠ .asleep k)
    (hanswered : ∀ x, phase ≠ .answered x) (hmay : s.MayStep first i) : ¬s.Finished first := by
  intro h
  obtain ⟨t, ht⟩ := exists_step? hi hasleep hanswered
  cases (h i hmay).symm.trans ht

theorem stepsAhead_move (hi : s.callers[i]? = some ⟨name, old⟩) {cache : Cache σ} {world : World σ}
    (h : phase.stepsAhead first < old.stepsAhead first) :
    (move ⟨cache, world, s.callers⟩ i phase).stepsAhead first < s.stepsAhead first :=
  sum_map_modify_lt (g := fun c : Caller => c.phase.stepsAhead first) hi h

theorem stepsAhead_wake {outcome : Except Failure Value}
    (hi : s.callers[i]? = some ⟨name, .waking outcome⟩) :
    ({ s with callers := s.callers.map (Caller.wake name) }.move i (.answered outcome)).stepsAhead
      first < s.stepsAhead first := by
  have hwoken := getElem?_wake hi (by simp) name
  have hsame : stepsAhead first { s with callers := s.callers.map (Caller.wake name) } =
      s.stepsAhead first := by
    simp only [stepsAhead, List.map_map, Function.comp_def, Caller.stepsAhead_wake]
  rw [← hsame]
  exact sum_map_modify_lt (g := fun c : Caller => c.phase.stepsAhead first) hwoken Nat.zero_lt_one

end Steps

end Callers

/-- What is known at a moment of callers who ask for one name: its slot, the records, the world, and
a condition for the phase of each caller. -/
structure Scene (σ : Type) where
  slot : Slot
  records : Records
  world : World σ
  Allows : Nat → Phase → Prop

/-- The condition that some callers have the given phases, and all others meet a condition. -/
def Allowing (known : List (Nat × Phase)) (rest : Phase → Prop) (i : Nat) (phase : Phase) : Prop :=
  match known.lookup i with
  | some p => phase = p
  | none => rest phase

section Allowing

variable {known : List (Nat × Phase)} {rest rest' : Phase → Prop} {i j : Nat} {p q : Phase}

theorem allowing_of_lookup (h : known.lookup i = none) : Allowing known rest i p ↔ rest p := by
  simp only [Allowing, h]

@[simp] theorem allowing_nil : Allowing [] rest i p ↔ rest p := allowing_of_lookup rfl

@[simp] theorem allowing_cons_self : Allowing ((i, p) :: known) rest i q ↔ q = p := by
  simp [Allowing]

theorem allowing_cons_of_ne (h : j ≠ i) :
    Allowing ((i, p) :: known) rest j q ↔ Allowing known rest j q := by
  have hne : (j == i) = false := beq_false_of_ne h
  simp only [Allowing, List.lookup_cons, hne]

theorem Allowing.mono (h : Allowing known rest i p) (hrest : rest p → rest' p) :
    Allowing known rest' i p := by
  unfold Allowing at h ⊢
  split at h
  · exact h
  · exact hrest h

theorem lookup_singleton_of_ne (h : j ≠ i) (p : Phase) : [(i, p)].lookup j = none := by
  rw [List.lookup_cons, beq_false_of_ne h]
  rfl

/-- All callers of whom the phase is known are answered. -/
def AllAnswered (known : List (Nat × Phase)) : Prop :=
  ∀ i p, known.lookup i = some p → ∃ x, p = .answered x

theorem allAnswered_nil : AllAnswered [] := by
  intro i p h
  cases h

theorem allAnswered_singleton (i : Nat) (result : Except Failure Value) :
    AllAnswered [(i, .answered result)] := by
  intro j p h
  by_cases hj : j = i
  · rw [hj, List.lookup_cons_self] at h
    exact ⟨result, (Option.some.inj h).symm⟩
  · cases (lookup_singleton_of_ne hj _).symm.trans h

/-- Who moves is not answered yet, and meets the condition for those of whom no more is known. -/
theorem AllAnswered.rest_of_moves (hknown : AllAnswered known) (hallows : Allowing known rest i p)
    {s t : Callers σ} {name : String} (h : s.Moves i name p t) :
    known.lookup i = none ∧ rest p := by
  cases hlookup : known.lookup i with
  | none => exact ⟨rfl, (allowing_of_lookup hlookup).mp hallows⟩
  | some q =>
    simp only [Allowing, hlookup] at hallows
    obtain ⟨x, rfl⟩ := hknown i q hlookup
    subst hallows
    cases h

end Allowing

namespace Callers

/-- There are `n` callers, who all ask for the name, and the scene describes them. -/
structure Shows (s : Callers σ) (table : Table σ) (name : String) (n : Nat) (scene : Scene σ) :
    Prop where
  table_eq : s.cache.table = table
  slot_eq : s.cache.slot name = scene.slot
  records_eq : s.cache.records = scene.records
  world_eq : s.world = scene.world
  length_eq : s.callers.length = n
  allows : ∀ (i : Nat) (c : Caller), s.callers[i]? = some c →
    c.name = name ∧ scene.Allows i c.phase

section Shows

variable {s t : Callers σ} {table : Table σ} {name : String} {n i : Nat} {scene scene' : Scene σ}
  {cache : Cache σ} {world : World σ} {old phase : Phase}

/-- One caller moves on, and the others stay as they are. -/
theorem Shows.move (h : s.Shows table name n scene) (hi : s.callers[i]? = some ⟨name, old⟩)
    (htable : cache.table = s.cache.table) (hslot : cache.slot name = scene'.slot)
    (hrecords : cache.records = scene'.records) (hworld : world = scene'.world)
    (hphase : scene'.Allows i phase)
    (hothers : ∀ (j : Nat) (c : Caller), j ≠ i → s.callers[j]? = some c →
      scene.Allows j c.phase → scene'.Allows j c.phase) :
    (Callers.move ⟨cache, world, s.callers⟩ i phase).Shows table name n scene' where
  table_eq := htable.trans h.table_eq
  slot_eq := hslot
  records_eq := hrecords
  world_eq := hworld
  length_eq := (List.length_modify _ _ _).trans h.length_eq
  allows j c hj := by
    rw [getElem?_move] at hj
    split at hj
    next hij =>
      subst hij
      obtain rfl : ⟨name, phase⟩ = c := by simpa [hi] using hj
      exact ⟨rfl, hphase⟩
    next hij =>
      obtain ⟨hname, hallows⟩ := h.allows j c hj
      exact ⟨hname, hothers j c (Ne.symm hij) hj hallows⟩

/-- One caller has its answer, and those who wait are woken. -/
theorem Shows.wake (h : s.Shows table name n scene) {outcome : Except Failure Value}
    (hi : s.callers[i]? = some ⟨name, .waking outcome⟩) (hslot : scene.slot = scene'.slot)
    (hrecords : scene.records = scene'.records) (hworld : scene.world = scene'.world)
    (hphase : scene'.Allows i (.answered outcome))
    (hothers : ∀ (j : Nat) (p : Phase), j ≠ i → scene.Allows j p →
      scene'.Allows j (Caller.wake name ⟨name, p⟩).phase) :
    ({ s with callers := s.callers.map (Caller.wake name) }.move i (.answered outcome)).Shows
      table name n scene' where
  table_eq := h.table_eq
  slot_eq := h.slot_eq.trans hslot
  records_eq := h.records_eq.trans hrecords
  world_eq := h.world_eq.trans hworld
  length_eq := by
    simp only [Callers.move, List.length_modify, List.length_map, h.length_eq]
  allows j c hj := by
    rw [getElem?_move] at hj
    split at hj
    next hij =>
      subst hij
      rw [getElem?_wake hi (by simp) name] at hj
      cases hj
      exact ⟨rfl, hphase⟩
    next hij =>
      rw [List.getElem?_map, Option.map_eq_some_iff] at hj
      obtain ⟨⟨asked, p⟩, hp, rfl⟩ := hj
      obtain ⟨rfl, hallows⟩ := h.allows j _ hp
      refine ⟨?_, hothers j p (Ne.symm hij) hallows⟩
      unfold Caller.wake
      split
      · split <;> rfl
      · rfl

/-- Somebody comes to look at the slot, and finds it as it is. -/
theorem Shows.enter (h : s.Shows table name n scene)
    (hi : s.callers[i]? = some ⟨name, .arriving⟩) (hnext : scene.Allows i (.looking none))
    (first : Nat) :
    let t := Callers.move ⟨s.cache.setSlot name (s.cache.slot name), s.world, s.callers⟩ i
      (.looking none)
    t.Shows table name n scene ∧ t.stepsAhead first < s.stepsAhead first := by
  refine ⟨h.move hi rfl ?_ h.records_eq h.world_eq hnext fun _ _ _ _ h => h,
    stepsAhead_move hi (Nat.lt_succ_self 6)⟩
  rw [Cache.slot_setSlot, if_pos rfl]
  exact h.slot_eq

theorem Shows.lt (h : s.Shows table name n scene) {c : Caller} (hi : s.callers[i]? = some c) :
    i < n := by
  rw [← h.length_eq]
  exact (List.getElem?_eq_some_iff.mp hi).1

/-- What the scene allows may be said in other words. -/
theorem Shows.mono (h : s.Shows table name n scene) {Allows : Nat → Phase → Prop}
    (hallows : ∀ i p, i < n → scene.Allows i p → Allows i p) :
    s.Shows table name n { scene with Allows := Allows } where
  table_eq := h.table_eq
  slot_eq := h.slot_eq
  records_eq := h.records_eq
  world_eq := h.world_eq
  length_eq := h.length_eq
  allows i c hi := (h.allows i c hi).imp_right (hallows i c.phase (h.lt hi))

theorem Shows.exists_moves (h : s.Shows table name n scene) (hstep : s.step? i = some t) :
    ∃ phase, s.callers[i]? = some ⟨name, phase⟩ ∧ s.Moves i name phase t := by
  obtain ⟨asked, phase, hi, hmoves⟩ := moves_of_step? hstep
  obtain rfl := (h.allows i _ hi).1
  exact ⟨phase, hi, hmoves⟩

theorem Shows.exists_phase (h : s.Shows table name n scene) (hi : i < n) :
    ∃ phase, s.callers[i]? = some ⟨name, phase⟩ ∧ scene.Allows i phase := by
  have hlt : i < s.callers.length := h.length_eq ▸ hi
  have hc : s.callers[i]? = some s.callers[i] := List.getElem?_eq_getElem hlt
  obtain ⟨hname, hallows⟩ := h.allows i _ hc
  exact ⟨_, hname ▸ hc, hallows⟩

end Shows

end Callers

end FilterLang
