import FilterLang.Proofs.Cache.Crowd
import FilterLang.Proofs.Cache.Waiters

/-! The books of a cache. Slots, used values and failed names are written at different steps, and an
attempt may end in three ways. While no attempt on a name is under way they say the same about it:
a value is used when its slot holds it, which is when an attempt has come to it, and the name has
failed when attempts have come to errors and none to a value. Of a name that the table does not
have they say nothing. -/

namespace FilterLang

variable {σ : Type}

namespace Attempt

/-- A slot holds a value when one of the attempts has come to it. -/
theorem InOrder.after_eq_resolved_iff {attempts : List Attempt} (h : InOrder attempts) (v : Value) :
    (Slot.after attempts).state = .resolved v ↔ ∃ a ∈ attempts, a.outcome = .ok v := by
  cases attempts with
  | nil => simp [Slot.after, Slot.vacant]
  | cons a earlier =>
    have hearlier : ¬∃ b ∈ earlier, b.outcome = .ok v := by
      rintro ⟨b, hb, hv⟩
      exact h.2.1 b hb v hv
    simp only [Slot.after, SlotState.settled_eq_resolved_iff, List.mem_cons,
      exists_eq_or_imp, hearlier, or_false]

/-- A name has failed when one of the attempts has come to an error and none to a value. -/
theorem InOrder.snd_notes_iff {attempts : List Attempt} (h : InOrder attempts) :
    (notes attempts).2 = some () ↔
      (∃ a ∈ attempts, ∃ e, a.outcome = .error (.error e)) ∧
        ∀ a ∈ attempts, ∀ v, a.outcome ≠ .ok v := by
  induction attempts with
  | nil => simp [notes]
  | cons a earlier ih =>
    obtain ⟨name, k, outcome⟩ := a
    obtain ⟨-, hvalues, hearlier⟩ := h
    rcases outcome with (e | _) | v
    · simpa [notes, note] using hvalues
    · simp [notes, note, ih hearlier]
    · simp [notes, note]

end Attempt

/-- Only names of the table have slots. -/
def Cache.SlotsListed (c : Cache σ) : Prop :=
  ∀ name, (c.slots.get? name).isSome → (c.table.get? name).isSome

namespace Course

variable {r : Course σ} {t : Callers σ} {i : Nat} {name : String} {phase : Phase}

/-- A step leaves the slots as they are, or puts in the one of its name, which the table has. -/
theorem Sound.slots_step (hr : r.Sound) (hlisted : r.now.cache.SlotsListed)
    (h : r.now.Moves i name phase t) (hi : r.now.callers[i]? = some ⟨name, phase⟩) :
    t.cache.slots = r.now.cache.slots ∨
      ∃ slot, t.cache.slots = r.now.cache.slots.insert name slot ∧
        (r.now.cache.table.get? name).isSome := by
  cases h with
  | enter hsome => exact .inr ⟨_, rfl, hsome⟩
  | begin => exact .inr ⟨_, rfl, hr.fits i _ hi⟩
  | publish =>
    refine .inr ⟨_, rfl, hlisted name ?_⟩
    -- A slot that is being resolved is there.
    obtain ⟨k, -, hslot, -⟩ := (hr.stage name).of_holds ⟨hi, rfl⟩
    cases hget : r.now.cache.slots.get? name with
    | some slot => rfl
    | none => simp [Cache.slot, hget, Slot.vacant] at hslot
  | record =>
    refine .inl ?_
    simp only [Callers.move, Cache.record]
    split <;> rfl
  | _ => exact .inl rfl

theorem Sound.slotsListed_next (hr : r.Sound) (hlisted : r.now.cache.SlotsListed) (e : Event σ) :
    (r.next e).now.cache.SlotsListed := by
  cases e with
  | arrive name => exact hlisted
  | host state => exact hlisted
  | step i =>
    rcases r.next_step_cases i with hsame | ⟨name, phase, t, hi, hmoves, hnext⟩
    · rwa [hsame]
    · rw [hnext]
      intro other hother
      change (t.cache.slots.get? other).isSome at hother
      change (t.cache.table.get? other).isSome
      rw [hmoves.table_eq]
      rcases hr.slots_step hlisted hmoves hi with hslots | ⟨slot, hslots, hsome⟩
      · exact hlisted other (hslots ▸ hother)
      · rw [hslots, NameMap.get?_insert] at hother
        split at hother
        next heq => exact heq ▸ hsome
        next => exact hlisted other hother

theorem slotsListed_run (table : Table σ) (host : σ) (events : List (Event σ)) :
    ((start table host).run events).now.cache.SlotsListed :=
  (run_keeps (P := fun r => r.Sound ∧ r.now.cache.SlotsListed)
    (fun _ e hr => ⟨hr.1.next e, hr.1.slotsListed_next hr.2 e⟩)
    ⟨sound_start table host, fun _ h => nomatch h⟩ events).2

theorem exists_mem_attempts {P : Except Failure Value → Prop} :
    (∃ a ∈ r.attempts name, P a.outcome) ↔ ∃ k x, ⟨name, k, x⟩ ∈ r.past ∧ P x := by
  constructor
  · rintro ⟨⟨other, k, x⟩, ha, hx⟩
    obtain rfl : other = name := name_of_mem_attempts ha
    exact ⟨k, x, mem_attempts.mp ha, hx⟩
  · rintro ⟨k, x, hmem, hx⟩
    exact ⟨_, mem_attempts.mpr hmem, hx⟩

/-- A name whose attempts are settled has its slot and its records from them. -/
theorem StageOf.of_nobody (h : r.StageOf name) (hnobody : ∀ i p, ¬r.now.Holds name i p) :
    r.now.cache.slot name = .after (r.attempts name) ∧
      r.now.cache.notes name = Attempt.notes (r.attempts name) := by
  refine (h.of_not_resolving fun k hk => ?_).2
  obtain ⟨i, p, hholds⟩ := h.exists_holds hk
  exact hnobody i p hholds

/-- What the books say of a name while nobody holds an attempt on it. -/
theorem Sound.books (hr : r.Sound) (hnobody : ∀ i p, ¬r.now.Holds name i p) :
    (∀ v, (r.now.cache.used.get? name = some v ↔
        (r.now.cache.slot name).state = .resolved v) ∧
      ((r.now.cache.slot name).state = .resolved v ↔ ∃ k, ⟨name, k, .ok v⟩ ∈ r.past)) ∧
    (r.now.cache.failed.get? name = some () ↔
      (∃ k e, ⟨name, k, .error (.error e)⟩ ∈ r.past) ∧ ∀ k v, ⟨name, k, .ok v⟩ ∉ r.past) := by
  obtain ⟨hslot, hnotes⟩ := (hr.stage name).of_nobody hnobody
  have horder := hr.inOrder name
  have hused : r.now.cache.used.get? name = (Attempt.notes (r.attempts name)).1 :=
    congrArg Prod.fst hnotes
  have hfailed : r.now.cache.failed.get? name = (Attempt.notes (r.attempts name)).2 :=
    congrArg Prod.snd hnotes
  have hvalue : ∀ v, (∃ a ∈ r.attempts name, a.outcome = .ok v) ↔
      ∃ k, ⟨name, k, .ok v⟩ ∈ r.past := fun v => by
    rw [exists_mem_attempts (P := (· = .ok v))]
    simp
  have herror : (∃ a ∈ r.attempts name, ∃ e, a.outcome = .error (.error e)) ↔
      ∃ k e, ⟨name, k, .error (.error e)⟩ ∈ r.past := by
    rw [exists_mem_attempts (P := fun x => ∃ e, x = .error (.error e))]
    grind
  refine ⟨fun v => ⟨?_, ?_⟩, ?_⟩
  · rw [hused, hslot, horder.fst_notes_iff]
  · rw [hslot, horder.after_eq_resolved_iff, hvalue]
  · rw [hfailed, horder.snd_notes_iff, herror]
    refine and_congr_right fun _ => ?_
    constructor
    · exact fun h k v hmem => h _ (mem_attempts.mpr hmem) v rfl
    · intro h a ha v hv
      obtain ⟨k, hk⟩ := (hvalue v).mp ⟨a, ha, hv⟩
      exact h k v hk

end Course

namespace Crowd

/-- In every state that requests and evaluations lead to in any order: while nobody holds an attempt
on a name, its used value is what its slot holds, which is what an attempt has come to; it has
failed when an attempt has come to an error and none to a value; and it is never both. A name that
the table does not have is nowhere. -/
theorem bookkeeping (table : Table σ) (host : σ) (actions : List (Action σ)) (name : String) :
    let r := ((start table host).run actions).course
    ((∀ i p, ¬r.now.Holds name i p) →
      (∀ v, (r.now.cache.used.get? name = some v ↔
          (r.now.cache.slot name).state = .resolved v) ∧
        ((r.now.cache.slot name).state = .resolved v ↔ ∃ k, ⟨name, k, .ok v⟩ ∈ r.past)) ∧
      (r.now.cache.failed.contains name = true ↔
        (∃ k e, ⟨name, k, .error (.error e)⟩ ∈ r.past) ∧ ∀ k v, ⟨name, k, .ok v⟩ ∉ r.past) ∧
      ¬(r.now.cache.used.contains name = true ∧ r.now.cache.failed.contains name = true)) ∧
    (table.get? name = none →
      r.now.cache.used.contains name = false ∧ r.now.cache.failed.contains name = false ∧
        r.now.cache.slots.contains name = false) := by
  intro r
  obtain ⟨events, hevents⟩ : ∃ events, r = (Course.start table host).run events :=
    (start table host).exists_events actions
  have hr : r.Sound := hevents ▸ Course.sound_run table host events
  have hlisted : r.Listed table := hevents ▸ Course.listed_run table host events
  have hslots : r.now.cache.SlotsListed := hevents ▸ Course.slotsListed_run table host events
  refine ⟨fun hnobody => ?_, fun hnone => ?_⟩
  · obtain ⟨hused, hfailed⟩ := hr.books hnobody
    have hcontains : r.now.cache.failed.contains name = true ↔
        r.now.cache.failed.get? name = some () := by
      rw [NameMap.contains, Option.isSome_iff_exists]
      exact ⟨fun ⟨_, h⟩ => h, fun h => ⟨(), h⟩⟩
    refine ⟨hused, hcontains.trans hfailed, fun ⟨hvalue, hfailure⟩ => ?_⟩
    obtain ⟨v, hv⟩ := Option.isSome_iff_exists.mp hvalue
    obtain ⟨k, hk⟩ := (hused v).2.mp ((hused v).1.mp hv)
    exact (hfailed.mp (hcontains.mp hfailure)).2 k v hk
  · have hnotes := (hr.stage name).notes_eq_none (hlisted.attempts_eq_nil hnone)
    have hslot : r.now.cache.slots.get? name = none := by
      refine Option.not_isSome_iff_eq_none.mp fun hsome => ?_
      have htable := hslots name hsome
      rw [hlisted.1, hnone] at htable
      cases htable
    have hused : r.now.cache.used.get? name = none := congrArg Prod.fst hnotes
    have hfailed : r.now.cache.failed.get? name = none := congrArg Prod.snd hnotes
    simp [NameMap.contains, hused, hfailed, hslot]

/-- Two evaluations of `x = 1`, of which the first one fails, and a request for a name that there
is not. -/
def failsThenHolds : List (Action Counts) :=
  let xIsOne : Chain := .one (.comparison ⟨.symbol "x", .equal, .literal (.integer 1)⟩)
  let steps : Nat → List (Action Counts) := fun i => List.replicate 6 (.event (.step i))
  [.evaluate xIsOne, .evaluate xIsOne, .proceed 0] ++ steps 0 ++ [.proceed 1] ++ steps 1 ++
    [.proceed 1, .event (.arrive "y"), .event (.step 2)]

/-- Then `x` has its value, which the second attempt has come to, and has not failed; `y` is
nowhere. -/
theorem bookkeeping_failsThenHolds :
    let r := ((start Course.flaky []).run failsThenHolds).course
    (∀ i p, ¬r.now.Holds "x" i p) ∧ ⟨"x", 2, .ok (.integer 1)⟩ ∈ r.past ∧
      r.now.cache.used.get? "x" = some (.integer 1) ∧ ¬r.now.cache.failed.contains "x" = true ∧
      r.now.cache.slots.contains "y" = false := by
  intro r
  obtain ⟨hbooks, -⟩ := bookkeeping Course.flaky [] failsThenHolds "x"
  obtain ⟨-, hnowhere⟩ := bookkeeping Course.flaky [] failsThenHolds "y"
  have hnobody : ∀ i p, ¬r.now.Holds "x" i p := by
    have hsettled : r.now.callers.all (fun c => c.phase.attempt?.isNone) = true := rfl
    rintro i p ⟨hi, hp⟩
    have hnone := List.all_eq_true.mp hsettled _ (List.mem_of_getElem? hi)
    exact absurd hp (Option.not_isSome_iff_eq_none.mpr (Option.isNone_iff_eq_none.mp hnone))
  have hvalue : ⟨"x", 2, .ok (.integer 1)⟩ ∈ r.past := .head _
  obtain ⟨hused, -, hnot⟩ := hbooks hnobody
  have hx : r.now.cache.used.get? "x" = some (.integer 1) :=
    (hused _).1.mpr ((hused _).2.mpr ⟨2, hvalue⟩)
  refine ⟨hnobody, hvalue, hx, fun hfailed => hnot ⟨?_, hfailed⟩, (hnowhere rfl).2.2⟩
  exact Option.isSome_iff_exists.mpr ⟨_, hx⟩

end Crowd

end FilterLang
