import FilterLang.Proofs.Cache.Round
import FilterLang.Proofs.Cache.Together
import FilterLang.Proofs.Cache.Transparent
import Mathlib.Data.List.Perm.Basic

/-! Requests for one name at the same time. If nobody else asks and the first attempt is held open
until all others wait for it, there is one account of how the requests end, whatever the order is in
which the callers make their steps. -/

namespace FilterLang

variable {σ : Type}

/-- A caller who last waited for `waited` gets the outcome as soon as it looks at the slot. -/
def Slot.Gives (slot : Slot) (waited : Option Nat) (outcome : Except Failure Value) : Prop :=
  ∃ result, slot.look waited = .answer result ∧ result.mapError .error = outcome

theorem Slot.gives_of_resolved {slot : Slot} {v : Value} (h : slot.state = .resolved v)
    (waited : Option Nat) : slot.Gives waited (.ok v) :=
  ⟨.ok v, by simp [look, h], rfl⟩

/-- Who looks at a slot with no value and no attempt under way begins an attempt. -/
theorem Slot.look_none_eq_begin {slot : Slot} (hfree : ∀ k, slot.state ≠ .resolving k)
    (hnew : ∀ v, slot.state ≠ .resolved v) : slot.look none = .begin (slot.attempts + 1) := by
  obtain ⟨attempts, state⟩ := slot
  cases state with
  | resolved v => exact absurd rfl (hnew v)
  | resolving k => exact absurd rfl (hfree k)
  | failed k e => simp [look]
  | vacant => rfl

/-- The caller has got the outcome, or will get it without waiting. -/
inductive Served (table : Table σ) (name : String) (slot : Slot)
    (outcome : Except Failure Value) : Phase → Prop
  | unknown : table.get? name = none → outcome = .error (.error (.unknownSymbol name)) →
      Served table name slot outcome .arriving
  | arriving : (table.get? name).isSome → slot.Gives none outcome →
      Served table name slot outcome .arriving
  | looking {waited : Option Nat} : slot.Gives waited outcome →
      Served table name slot outcome (.looking waited)
  | answered : Served table name slot outcome (.answered outcome)

/-- When all that are not answered are served, they get the outcome and change nothing. -/
def Scene.served (table : Table σ) (name : String) (slot : Slot) (records : Records)
    (world : World σ) (known : List (Nat × Phase)) (outcome : Except Failure Value) : Scene σ :=
  ⟨slot, records, world, Allowing known (Served table name slot outcome)⟩

namespace Callers

section Served

variable {s t : Callers σ} {table : Table σ} {name : String} {n first i : Nat} {slot : Slot}
  {records : Records} {world : World σ} {known : List (Nat × Phase)}
  {outcome : Except Failure Value}

theorem Shows.served_step (hknown : AllAnswered known)
    (hs : s.Shows table name n (.served table name slot records world known outcome))
    (hstep : s.step? i = some t) :
    t.Shows table name n (.served table name slot records world known outcome) ∧
      t.stepsAhead first < s.stepsAhead first := by
  obtain ⟨phase, hi, h⟩ := hs.exists_moves hstep
  obtain ⟨hnone, hserved⟩ := hknown.rest_of_moves (hs.allows i _ hi).2 h
  have hnext : ∀ p, Served table name slot outcome p →
      (Scene.served table name slot records world known outcome).Allows i p :=
    fun p => (allowing_of_lookup hnone).mpr
  cases h with
  | refuse hrefuse =>
    rw [hs.table_eq] at hrefuse
    have hanswer : outcome = .error (.error (.unknownSymbol name)) := by
      cases hserved with
      | unknown _ h => exact h
      | arriving h => simp [hrefuse] at h
    subst hanswer
    exact ⟨hs.move hi rfl hs.slot_eq hs.records_eq hs.world_eq (hnext _ .answered)
      fun _ _ _ _ h => h, stepsAhead_move hi (Nat.zero_lt_succ 6)⟩
  | enter hsome =>
    cases hserved with
    | unknown h => simp [hs.table_eq, h] at hsome
    | arriving _ h => exact hs.enter hi (hnext _ (.looking h)) first
  | @answer waited result hlook =>
    rw [hs.slot_eq] at hlook
    obtain ⟨_, hgives, rfl⟩ : slot.Gives waited outcome := by
      cases hserved
      assumption
    cases hlook.symm.trans hgives
    refine ⟨hs.move hi rfl hs.slot_eq hs.records_eq hs.world_eq (hnext _ .answered)
      fun _ _ _ _ h => h, stepsAhead_move hi ?_⟩
    cases waited with
    | none => exact Nat.zero_lt_succ 5
    | some k =>
      simp only [Phase.stepsAhead]
      split <;> omega
  | wait hlook | begin hlook =>
    rw [hs.slot_eq] at hlook
    cases hserved with
    | looking h =>
      obtain ⟨_, hgives, -⟩ := h
      cases hlook.symm.trans hgives
  | _ => cases hserved

/-- In the end, whoever was served is answered. -/
theorem Shows.allowing_answered
    (hs : s.Shows table name n (.served table name slot records world known outcome))
    (hfinished : s.Finished first) (i : Nat) (c : Caller) (hi : s.callers[i]? = some c) :
    Allowing known (· = .answered outcome) i c.phase := by
  obtain ⟨asked, p⟩ := c
  refine (hs.allows i _ hi).2.mono fun hserved => ?_
  cases hserved with
  | answered => rfl
  | _ =>
    exact absurd hfinished (not_finished hi (by simp) (by simp) (mayStep_of_ne hi (by simp)))

end Served

section Answers

variable {s : Callers σ} {outcome : Except Failure Value}

theorem filterMap_eq_replicate {α β : Type} {f : α → Option β} {b : β} {l : List α}
    (h : ∀ a ∈ l, f a = some b) : l.filterMap f = .replicate l.length b := by
  induction l with
  | nil => rfl
  | cons a l ih =>
    rw [List.filterMap_cons_some (h a List.mem_cons_self),
      ih fun a ha => h a (List.mem_cons_of_mem _ ha), List.length_cons, List.replicate_succ]

theorem answers_eq_replicate
    (h : ∀ (i : Nat) (c : Caller), s.callers[i]? = some c →
      Allowing [] (· = .answered outcome) i c.phase) :
    s.answers = .replicate s.callers.length outcome := by
  refine filterMap_eq_replicate fun c hc => ?_
  obtain ⟨i, hi⟩ := List.getElem?_of_mem hc
  have hphase := h i c hi
  rw [allowing_nil] at hphase
  simp only [hphase]

/-- One caller has an answer of its own. -/
theorem answers_perm {i : Nat} (hi : i < s.callers.length) {own : Except Failure Value}
    (h : ∀ (i' : Nat) (c : Caller), s.callers[i']? = some c →
      Allowing [(i, .answered own)] (· = .answered outcome) i' c.phase) :
    s.answers.Perm (own :: .replicate (s.callers.length - 1) outcome) := by
  have hown : s.callers[i].phase = .answered own :=
    allowing_cons_self.mp (h i _ (List.getElem?_eq_getElem hi))
  have hothers : ∀ c ∈ s.callers.eraseIdx i, c.phase = .answered outcome := by
    intro c hc
    obtain ⟨j, hne, hj⟩ := List.mem_eraseIdx_iff_getElem?.mp hc
    have hphase := h j c hj
    rwa [allowing_cons_of_ne hne, allowing_nil] at hphase
  refine ((List.getElem_cons_eraseIdx_perm hi).symm.filterMap _).trans ?_
  rw [List.filterMap_cons_some (b := own) (by simp only [hown]),
    filterMap_eq_replicate (b := outcome) fun c hc => by simp only [hothers c hc],
    List.length_eraseIdx_of_lt hi]

end Answers

end Callers

namespace Round

/-- The first attempt of the callers. -/
def first (c : Cache σ) (w : World σ) (name : String) (symbol : Symbol σ) : Round σ where
  attempt := (c.slot name).attempts + 1
  outcome := (symbol.resolve name w).1
  slot := c.slot name
  records := c.records
  before := w
  after := (symbol.resolve name w).2
  waited := none
  known := []

/-- The attempt that makes up for one that has crashed; the caller of that one has its answer. -/
def again (R : Round σ) (name : String) (symbol : Symbol σ) (i : Nat) : Round σ where
  attempt := R.attempt + 1
  outcome := (symbol.resolve name R.after).1
  slot := R.settled
  records := R.records.note name R.outcome
  before := R.after
  after := (symbol.resolve name R.after).2
  waited := some R.attempt
  known := [(i, .answered R.outcome)]

/-- What is known when the attempt is over and no other will follow. -/
def ended (R : Round σ) (table : Table σ) (name : String) : Scene σ :=
  .served table name R.settled (R.records.note name R.outcome) R.after R.known R.outcome

section

variable {R : Round σ} {table : Table σ} {name : String} {n i : Nat} {symbol : Symbol σ}
  {s : Callers σ}

/-- The settled slot gives the outcome of the attempt to those who waited for it, or to all if it is
a value. -/
theorem gives_settled (h : R.outcome ≠ .error .crash) :
    R.settled.Gives (some R.attempt) R.outcome := by
  unfold settled
  rcases houtcome : R.outcome with (e | _) | v
  · exact ⟨.error e, by simp [SlotState.settled, Slot.look], rfl⟩
  · exact absurd houtcome h
  · exact Slot.gives_of_resolved rfl _

theorem served_of_benefits (hsymbol : table.get? name = some symbol) {phase : Phase}
    (h : R.Benefits phase) : Served table name R.settled R.outcome phase := by
  obtain ⟨⟨v, hv⟩, hlate⟩ := h
  have hgives : ∀ waited, R.settled.Gives waited R.outcome := by
    rw [hv]
    exact Slot.gives_of_resolved (by simp [settled, hv, SlotState.settled])
  rcases hlate with (⟨rfl, -⟩ | rfl) | rfl
  · exact .arriving (hsymbol ▸ rfl) (hgives none)
  · exact .looking (hgives _)
  · exact .answered

/-- After an attempt that does not crash, all are served. After one that does, this is so if its
caller is the only one. -/
theorem Passed.served (hs : R.Passed table name n s i) (hsymbol : table.get? name = some symbol)
    (h : R.outcome ≠ .error .crash ∨ n = 1) :
    s.Shows table name n (R.ended table name) := by
  obtain ⟨⟨hlt, hnone⟩, hs⟩ := hs
  refine hs.mono fun j p hj hallows => ?_
  by_cases hij : j = i
  · subst hij
    obtain rfl := allowing_cons_self.mp hallows
    exact (allowing_of_lookup hnone).mpr .answered
  · refine ((allowing_cons_of_ne hij).mp hallows).mono fun hwakes => ?_
    rcases hwakes with rfl | hbenefits
    · have hcrash := h.resolve_right (by omega)
      exact .looking (gives_settled hcrash)
    · exact served_of_benefits hsymbol hbenefits

/-- After a crash, all but its caller go on to the next attempt. -/
theorem Passed.again (hs : R.Passed table name n s i) (hknown : R.known = [])
    (hcrash : R.outcome = .error .crash) (symbol : Symbol σ) :
    (R.again name symbol i).Underway table name n s := by
  obtain ⟨-, hs⟩ := hs
  rw [hknown] at hs
  refine .gathered (hs.mono fun j p _ hallows => Allowing.mono hallows fun hwakes => ?_)
  rcases hwakes with rfl | ⟨⟨v, hv⟩, -⟩
  · exact .inr rfl
  · cases hcrash.symm.trans hv

end

end Round

/-- What requests for a name, one after the other, make of a cache and the world. -/
def Cache.requested (c : Cache σ) (w : World σ) (name : String) (count : Nat) : Cache σ × World σ :=
  (replies Cache.get (.replicate count (.value name)) (c, w)).2

theorem Cache.requested_succ {c : Cache σ} {w : World σ} {name : String} {symbol : Symbol σ}
    {k : Nat} (hsymbol : c.table.get? name = some symbol)
    (hlook : (c.slot name).look none = .begin k) (count : Nat) :
    c.requested w name (count + 1) =
      (c.settle name k (symbol.resolve name w).1).requested (symbol.resolve name w).2 name
        count := by
  have hget : get name (c, w) = ((symbol.resolve name w).1,
      c.settle name k (symbol.resolve name w).1, (symbol.resolve name w).2) := by
    simp only [get, hsymbol, hlook]
    rfl
  simp only [requested, List.replicate_succ, replies, Question.reply, hget]

theorem Cache.records_settle (c : Cache σ) (name : String) (attempt : Nat)
    (outcome : Except Failure Value) :
    (c.settle name attempt outcome).records = c.records.note name outcome :=
  Cache.records_record (c.begin name attempt) name outcome

/-- The sequential account of `n` requests for one name at the same time: the answers and the number
of attempts that they take. -/
inductive Cache.Account (c : Cache σ) (w : World σ) (name : String) :
    (n : Nat) → (answers : List (Except Failure Value)) → (attempts : Nat) → Prop
  /-- There is no such name. -/
  | unknown (n : Nat) : c.table.get? name = none →
      Account c w name n (.replicate n (.error (.error (.unknownSymbol name)))) 0
  /-- The name has been resolved. -/
  | known (n : Nat) {v : Value} : (c.table.get? name).isSome →
      (c.slot name).state = .resolved v → Account c w name n (.replicate n (.ok v)) 0
  /-- The first attempt comes to a value or an error, which all callers get. -/
  | shared {n : Nat} {symbol : Symbol σ} : 0 < n → c.table.get? name = some symbol →
      (∀ v, (c.slot name).state ≠ .resolved v) → (symbol.resolve name w).1 ≠ .error .crash →
      Account c w name n (.replicate n (symbol.resolve name w).1) 1
  /-- The only attempt crashes. -/
  | alone {symbol : Symbol σ} : c.table.get? name = some symbol →
      (∀ v, (c.slot name).state ≠ .resolved v) → (symbol.resolve name w).1 = .error .crash →
      Account c w name 1 [.error .crash] 1
  /-- The first attempt crashes, and all but its caller get the value of the second. -/
  | retried {n : Nat} {symbol : Symbol σ} {v : Value} : 1 < n → c.table.get? name = some symbol →
      (∀ v, (c.slot name).state ≠ .resolved v) → (symbol.resolve name w).1 = .error .crash →
      (symbol.resolve name (symbol.resolve name w).2).1 = .ok v →
      Account c w name n (.error .crash :: .replicate (n - 1) (.ok v)) 2

/-- The callers have got the answers by a number of attempts, and have left the used values, the
failed names and the world as attempts one after the other leave them. -/
structure Callers.Meets (s : Callers σ) (c : Cache σ) (w : World σ) (name : String)
    (answers : List (Except Failure Value)) (attempts : Nat) : Prop where
  answers_perm : s.answers.Perm answers
  attempts_eq : (s.cache.slot name).attempts = (c.slot name).attempts + attempts
  log_eq : ∀ run, c.table.get? name = some (.resolver run) →
    s.world.log = .replicate attempts name ++ w.log
  used_eq : s.cache.used = (c.requested w name attempts).1.used
  failed_eq : s.cache.failed = (c.requested w name attempts).1.failed
  world_eq : s.world = (c.requested w name attempts).2

namespace Callers

section Ends

variable {c : Cache σ} {w : World σ} {name : String} {n attempts first : Nat} {symbol : Symbol σ}
  {s : Callers σ} {schedule : List Nat} {answers : List (Except Failure Value)}

/-- What holds at the beginning and is kept by every step is all that has to be looked at in the
end. -/
theorem Schedule.ends (hs : Schedule first (asking n name c w) schedule s) {P : Callers σ → Prop}
    (hstart : P (asking n name c w))
    (hstep : ∀ s i t, P s → s.MayStep first i → s.step? i = some t →
      P t ∧ t.stepsAhead first < s.stepsAhead first)
    (hend : ∀ s, P s → s.Finished first → s.Meets c w name answers attempts) :
    schedule.length ≤ 7 * n ∧ (s.Finished first → s.Meets c w name answers attempts) := by
  obtain ⟨h, hlength⟩ := hs.keeps hstep hstart
  have hahead : (asking n name c w).stepsAhead first = 7 * n := by
    simp only [asking, stepsAhead, List.map_replicate, List.sum_replicate_nat, Phase.stepsAhead]
    omega
  exact ⟨by omega, hend s h⟩

theorem Shows.meets {table : Table σ} {scene : Scene σ} (hs : s.Shows table name n scene)
    (hanswers : s.answers.Perm answers)
    (hattempts : scene.slot.attempts = (c.slot name).attempts + attempts)
    (hlog : ∀ run, c.table.get? name = some (.resolver run) →
      scene.world.log = .replicate attempts name ++ w.log)
    (hrecords : scene.records = (c.requested w name attempts).1.records)
    (hworld : scene.world = (c.requested w name attempts).2) :
    s.Meets c w name answers attempts where
  answers_perm := hanswers
  attempts_eq := hs.slot_eq ▸ hattempts
  log_eq run hrun := hs.world_eq ▸ hlog run hrun
  used_eq := congrArg Prod.fst (hs.records_eq.trans hrecords)
  failed_eq := congrArg Prod.snd (hs.records_eq.trans hrecords)
  world_eq := hs.world_eq.trans hworld

/-- If all are served from the beginning, there is no attempt. -/
theorem Schedule.meets_of_served (hs : Schedule first (asking n name c w) schedule s)
    {outcome : Except Failure Value}
    (hserved : Served c.table name (c.slot name) outcome .arriving) :
    schedule.length ≤ 7 * n ∧
      (s.Finished first → s.Meets c w name (.replicate n outcome) 0) := by
  refine hs.ends (P := fun s => s.Shows c.table name n
      (.served c.table name (c.slot name) c.records w [] outcome))
    (shows_asking fun _ => allowing_nil.mpr hserved)
    (fun s i t hs _ => hs.served_step allAnswered_nil) fun s hs hfinished => ?_
  refine hs.meets ?_ rfl (fun _ _ => rfl) rfl rfl
  rw [answers_eq_replicate (hs.allowing_answered hfinished), hs.length_eq]

theorem fits_first (hn : 0 < n) (hfree : ∀ k, (c.slot name).state ≠ .resolving k)
    (hnew : ∀ v, (c.slot name).state ≠ .resolved v) :
    (Round.first c w name symbol).Fits name symbol n ((c.slot name).attempts + 1) where
  look_eq := Slot.look_none_eq_begin hfree hnew
  resolve_eq := rfl
  answered := allAnswered_nil
  exists_takes := ⟨0, hn, rfl⟩
  order := .inl ⟨rfl, rfl, rfl⟩

theorem fits_again (hn : 1 < n) {v : Value} (hcrash : (symbol.resolve name w).1 = .error .crash)
    (hvalue : (symbol.resolve name (symbol.resolve name w).2).1 = .ok v) (i : Nat) :
    ((Round.first c w name symbol).again name symbol i).Fits name symbol n
      ((c.slot name).attempts + 1) where
  look_eq := by
    simp only [Round.again, Round.settled, Round.first, hcrash]
    rfl
  resolve_eq := rfl
  answered := allAnswered_singleton i _
  exists_takes := by
    by_cases hi : i = 0
    · exact ⟨1, hn, lookup_singleton_of_ne (by omega) _⟩
    · exact ⟨0, by omega, lookup_singleton_of_ne (by omega) _⟩
  order := .inr ⟨rfl, rfl, v, hvalue⟩

/-- If all are served after the first attempt, there is no other. -/
theorem Schedule.meets_of_first (hn : 0 < n) (hfree : ∀ k, (c.slot name).state ≠ .resolving k)
    (hnew : ∀ v, (c.slot name).state ≠ .resolved v) (hsymbol : c.table.get? name = some symbol)
    (hone : (symbol.resolve name w).1 ≠ .error .crash ∨ n = 1)
    (hs : Schedule ((c.slot name).attempts + 1) (asking n name c w) schedule s) :
    schedule.length ≤ 7 * n ∧ (s.Finished ((c.slot name).attempts + 1) →
      s.Meets c w name (.replicate n (symbol.resolve name w).1) 1) := by
  let R := Round.first c w name symbol
  have hR : R.Fits name symbol n _ := fits_first hn hfree hnew
  refine hs.ends
    (P := fun s => R.Underway c.table name n s ∨ s.Shows c.table name n (R.ended c.table name))
    (.inl (.gathered (shows_asking fun _ => allowing_nil.mpr (.inl ⟨rfl, rfl⟩)))) ?_ ?_
  · rintro s i t (hs | hs) hmay hstep
    · obtain ⟨ht | ⟨j, ht⟩, hless⟩ := hR.step hsymbol hs hmay hstep
      · exact ⟨.inl ht, hless⟩
      · exact ⟨.inr (ht.served hsymbol hone), hless⟩
    · exact (hs.served_step hR.answered hstep).imp_left .inr
  · rintro s (hs | hs) hfinished
    · exact absurd hfinished (hR.not_finished hs)
    · have hrequested := Cache.requested_succ (w := w) hsymbol hR.look_eq 0
      refine hs.meets ?_ rfl (fun run hrun => ?_) ?_ (hrequested ▸ rfl)
      · rw [answers_eq_replicate (hs.allowing_answered hfinished), hs.length_eq]
        rfl
      · obtain rfl : symbol = .resolver run := Option.some.inj (hsymbol.symm.trans hrun)
        exact (Symbol.resolver run).log_resolve name w
      · rw [hrequested]
        exact (c.records_settle name _ _).symm

/-- If the first attempt crashes and the second comes to a value, one caller gets the crash. -/
theorem Schedule.meets_of_again (hn : 1 < n) (hfree : ∀ k, (c.slot name).state ≠ .resolving k)
    (hnew : ∀ v, (c.slot name).state ≠ .resolved v) (hsymbol : c.table.get? name = some symbol)
    {v : Value} (hcrash : (symbol.resolve name w).1 = .error .crash)
    (hvalue : (symbol.resolve name (symbol.resolve name w).2).1 = .ok v)
    (hs : Schedule ((c.slot name).attempts + 1) (asking n name c w) schedule s) :
    schedule.length ≤ 7 * n ∧ (s.Finished ((c.slot name).attempts + 1) →
      s.Meets c w name (.error .crash :: .replicate (n - 1) (.ok v)) 2) := by
  let R := Round.first c w name symbol
  have hR : R.Fits name symbol n _ := fits_first (Nat.zero_lt_of_lt hn) hfree hnew
  have hagain : ∀ i, (R.again name symbol i).Fits name symbol n _ := fits_again hn hcrash hvalue
  refine hs.ends (P := fun s => R.Underway c.table name n s ∨ ∃ i < n,
      (R.again name symbol i).Underway c.table name n s ∨
        s.Shows c.table name n ((R.again name symbol i).ended c.table name))
    (.inl (.gathered (shows_asking fun _ => allowing_nil.mpr (.inl ⟨rfl, rfl⟩)))) ?_ ?_
  · rintro s i t (hs | ⟨l, hl, hs | hs⟩) hmay hstep
    · obtain ⟨ht | ⟨j, ht⟩, hless⟩ := hR.step hsymbol hs hmay hstep
      · exact ⟨.inl ht, hless⟩
      · exact ⟨.inr ⟨j, ht.1.1, .inl (ht.again rfl hcrash symbol)⟩, hless⟩
    · obtain ⟨ht | ⟨j, ht⟩, hless⟩ := (hagain l).step hsymbol hs hmay hstep
      · exact ⟨.inr ⟨l, hl, .inl ht⟩, hless⟩
      · have hok : (R.again name symbol l).outcome ≠ .error .crash := by
          rw [show (R.again name symbol l).outcome = .ok v from hvalue]
          nofun
        exact ⟨.inr ⟨l, hl, .inr (ht.served hsymbol (.inl hok))⟩, hless⟩
    · obtain ⟨ht, hless⟩ := hs.served_step (hagain l).answered hstep
      exact ⟨.inr ⟨l, hl, .inr ht⟩, hless⟩
  · rintro s (hs | ⟨i, hi, hs | hs⟩) hfinished
    · exact absurd hfinished (hR.not_finished hs)
    · exact absurd hfinished ((hagain i).not_finished hs)
    · have hlook : ((c.settle name R.attempt R.outcome).slot name).look none =
          .begin (R.attempt + 1) := by
        rw [Cache.slot_settle, if_pos rfl]
        exact Slot.look_none_eq_begin (fun _ => SlotState.settled_ne_resolving _ _ _)
          (by simp [R, Round.first, hcrash, SlotState.settled])
      have hrequested := (Cache.requested_succ (w := w) hsymbol hR.look_eq 1).trans
        (Cache.requested_succ ((Cache.table_settle c name _ _).symm ▸ hsymbol) hlook 0)
      refine hs.meets ?_ rfl (fun run hrun => ?_) ?_ (hrequested ▸ rfl)
      · have hperm := answers_perm (hs.length_eq ▸ hi) (hs.allowing_answered hfinished)
        rw [hs.length_eq] at hperm
        simpa only [R, Round.again, Round.first, hcrash, hvalue] using hperm
      · obtain rfl : symbol = .resolver run := Option.some.inj (hsymbol.symm.trans hrun)
        rfl
      · rw [hrequested]
        refine Eq.trans ?_ (Cache.records_settle _ name _ _).symm
        rw [c.records_settle]
        rfl

theorem Schedule.meets (hfree : ∀ k, (c.slot name).state ≠ .resolving k)
    (h : c.Account w name n answers attempts)
    (hs : Schedule ((c.slot name).attempts + 1) (asking n name c w) schedule s) :
    schedule.length ≤ 7 * n ∧
      (s.Finished ((c.slot name).attempts + 1) → s.Meets c w name answers attempts) := by
  cases h with
  | unknown _ hnone => exact hs.meets_of_served (.unknown hnone rfl)
  | known _ hsome hv => exact hs.meets_of_served (.arriving hsome (Slot.gives_of_resolved hv none))
  | shared hn hsymbol hnew hcrash =>
    exact hs.meets_of_first hn hfree hnew hsymbol (.inl hcrash)
  | alone hsymbol hnew hcrash =>
    rw [← hcrash]
    exact hs.meets_of_first Nat.zero_lt_one hfree hnew hsymbol (.inr rfl)
  | retried hn hsymbol hnew hcrash hvalue =>
    exact hs.meets_of_again hn hfree hnew hsymbol hcrash hvalue

/-- Let any number of callers ask for one name at the same time, with nobody else asking and with
the first attempt held open until all others wait for it. Whatever the order of their steps is, they
come to an end, with the answers, the attempts and the records of the sequential account; and so
does the program that lets them take turns, whose order is one of these. -/
theorem simultaneous (hfree : ∀ k, (c.slot name).state ≠ .resolving k)
    (h : c.Account w name n answers attempts) :
    (∀ schedule s, Schedule ((c.slot name).attempts + 1) (asking n name c w) schedule s →
      schedule.length ≤ 7 * n ∧
        (s.Finished ((c.slot name).attempts + 1) → s.Meets c w name answers attempts)) ∧
    (∃ schedule, Schedule ((c.slot name).attempts + 1) (asking n name c w) schedule
      (together n name c w)) ∧
    (together n name c w).Finished ((c.slot name).attempts + 1) ∧
    (together n name c w).Meets c w name answers attempts := by
  obtain ⟨⟨schedule, hschedule⟩, hdone⟩ := exists_schedule_together n name c w hfree
  have hfinished := hdone.finished ((c.slot name).attempts + 1)
  exact ⟨fun _ _ hs => hs.meets hfree h, ⟨schedule, hschedule⟩, hfinished,
    (hschedule.meets hfree h).2 hfinished⟩

end Ends

/-- The first attempt on the name crashes, and the second one comes to a value. -/
def crashingOnce : Cache Counts :=
  .new (NameMap.empty.insert "x" (Script.symbol 0 [.crash, .value (.integer 1)]))

/-- Three callers ask for the name. One of them gets the crash, and the two others get the value of
the attempt that one of these makes. -/
theorem simultaneous_crashingOnce :
    (∀ k, (crashingOnce.slot "x").state ≠ .resolving k) ∧
      crashingOnce.Account ⟨[], []⟩ "x" 3 [.error .crash, .ok (.integer 1), .ok (.integer 1)] 2 ∧
      ∃ schedule s, Schedule 1 (asking 3 "x" crashingOnce ⟨[], []⟩) schedule s ∧
        schedule.length ≤ 21 ∧ s.Finished 1 ∧
        s.answers.Perm [.error .crash, .ok (.integer 1), .ok (.integer 1)] ∧
        (s.cache.slot "x").attempts = 2 := by
  have hfree : ∀ k, (crashingOnce.slot "x").state ≠ .resolving k := nofun
  have haccount : crashingOnce.Account ⟨[], []⟩ "x" 3
      [.error .crash, .ok (.integer 1), .ok (.integer 1)] 2 :=
    .retried (by decide) rfl nofun rfl rfl
  obtain ⟨hall, ⟨schedule, hschedule⟩, hfinished, -⟩ := simultaneous hfree haccount
  obtain ⟨hlength, hmeets⟩ := hall schedule _ hschedule
  exact ⟨hfree, haccount, schedule, _, hschedule, hlength, hfinished,
    (hmeets hfinished).answers_perm, (hmeets hfinished).attempts_eq⟩

end Callers

end FilterLang
