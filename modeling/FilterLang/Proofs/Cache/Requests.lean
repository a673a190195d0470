import FilterLang.Proofs.Cache.Attempts
import FilterLang.Proofs.Expr.Inquiry

/-! Requests one after the other. A request that nobody disturbs goes through the steps of a single
caller, so the sequential account of a cache stays among the states that courses reach. In all of
them the record of used values is what the slots hold, for every name that is not being resolved,
and each request adds to the record at most its own answer. -/

namespace FilterLang

variable {σ : Type}

/-- An entry answers by the host's state alone. -/
theorem Symbol.resolve_fst_congr (symbol : Symbol σ) (name : String) {w w' : World σ}
    (h : w.host = w'.host) : (symbol.resolve name w).1 = (symbol.resolve name w').1 := by
  cases symbol with
  | value v => rfl
  | json data =>
    simp only [resolve]
    split <;> rfl
  | resolver run => simp only [resolve, h]

theorem Symbol.host_resolve_congr (symbol : Symbol σ) (name : String) {w w' : World σ}
    (h : w.host = w'.host) :
    (symbol.resolve name w).2.host = (symbol.resolve name w').2.host := by
  cases symbol with
  | value v => exact h
  | json data =>
    simp only [resolve]
    split <;> exact h
  | resolver run => simp only [resolve, h]

/-- An entry that fails names itself. -/
theorem Symbol.symbol?_of_resolve {symbol : Symbol σ} {name : String} {w : World σ} {e : EvalError}
    (h : (symbol.resolve name w).1 = .error (.error e)) : e.symbol? = some name := by
  cases symbol with
  | value v => cases h
  | json data =>
    simp only [resolve] at h
    split at h <;> cases h
    rfl
  | resolver run =>
    simp only [resolve] at h
    generalize (run w.host).1 = outcome at h
    cases outcome <;> cases h
    rfl

theorem Attempt.fst_note (outcome : Except Failure Value) (notes : Option Value × Option Unit)
    (v : Value) :
    (note outcome notes).1 = some v ↔
      outcome = .ok v ∨ (∀ w, outcome ≠ .ok w) ∧ notes.1 = some v := by
  rcases outcome with (e | _) | w <;> simp [note]

/-- Who has not waited gets an answer only from a value. -/
theorem Slot.look_none_eq_answer {s : Slot} {result : Except EvalError Value}
    (h : s.look none = .answer result) : ∃ v, result = .ok v ∧ s.state = .resolved v := by
  obtain ⟨attempts, state⟩ := s
  cases state <;> cases h
  exact ⟨_, rfl, rfl⟩

namespace Cache

/-- The cache after an attempt that nobody disturbs. -/
def settle (c : Cache σ) (name : String) (attempt : Nat) (outcome : Except Failure Value) :
    Cache σ :=
  ((c.begin name attempt).record name outcome).publish name attempt outcome

@[simp] theorem table_settle (c : Cache σ) (name : String) (attempt : Nat)
    (outcome : Except Failure Value) : (c.settle name attempt outcome).table = c.table :=
  table_record _ name outcome

@[simp] theorem slot_settle (c : Cache σ) (name other : String) (attempt : Nat)
    (outcome : Except Failure Value) :
    (c.settle name attempt outcome).slot other =
      if other = name then ⟨attempt, .settled attempt outcome⟩ else c.slot other := by
  simp only [settle, slot_publish, slot_record, slot_begin, ↓reduceIte]
  split <;> rfl

/-- An attempt that nobody disturbs is not under way any more. -/
theorem settle_ne_resolving {c : Cache σ} {other : String}
    (hfree : ∀ k, (c.slot other).state ≠ .resolving k) (name : String) (attempt : Nat)
    (outcome : Except Failure Value) (k : Nat) :
    ((c.settle name attempt outcome).slot other).state ≠ .resolving k := by
  rw [slot_settle]
  split
  · exact SlotState.settled_ne_resolving attempt k outcome
  · exact hfree k

@[simp] theorem notes_settle (c : Cache σ) (name other : String) (attempt : Nat)
    (outcome : Except Failure Value) :
    (c.settle name attempt outcome).notes other =
      if other = name then Attempt.note outcome (c.notes name) else c.notes other :=
  notes_record _ name other outcome

/-- What a request does. -/
inductive Gets (c : Cache σ) (w : World σ) (name : String) :
    Except Failure Value × Cache σ × World σ → Prop where
  | unknown : c.table.get? name = none →
      Gets c w name (.error (.error (.unknownSymbol name)), c, w)
  | known {v : Value} : (c.table.get? name).isSome → (c.slot name).state = .resolved v →
      Gets c w name (.ok v, c, w)
  | stuck {k : Nat} : (c.slot name).state = .resolving k → Gets c w name (.error .crash, c, w)
  | resolves {symbol : Symbol σ} {k : Nat} : c.table.get? name = some symbol →
      (c.slot name).look none = .begin k →
      Gets c w name
        ((symbol.resolve name w).1, c.settle name k (symbol.resolve name w).1,
          (symbol.resolve name w).2)

theorem gets (c : Cache σ) (w : World σ) (name : String) : c.Gets w name (get name (c, w)) := by
  simp only [get]
  split
  next hnone => exact .unknown hnone
  next symbol hsymbol =>
    split
    next result hlook =>
      obtain ⟨v, rfl, hv⟩ := Slot.look_none_eq_answer hlook
      exact .known (hsymbol ▸ rfl) hv
    next hlook => exact .stuck (Slot.look_eq_wait hlook)
    next hlook => exact .resolves hsymbol hlook

/-- A request leaves the table as it is. -/
theorem table_get (c : Cache σ) (w : World σ) (name : String) :
    (get name (c, w)).2.1.table = c.table := by
  have hgets := c.gets w name
  generalize get name (c, w) = done at hgets ⊢
  cases hgets with
  | resolves => exact table_settle c name _ _
  | _ => rfl

/-- A request that nobody disturbs leaves no attempt under way. -/
theorem ne_resolving_get {c : Cache σ} {name : String}
    (hfree : ∀ k, (c.slot name).state ≠ .resolving k) (w : World σ) (asked : String) (k : Nat) :
    ((get asked (c, w)).2.1.slot name).state ≠ .resolving k := by
  have hgets := c.gets w asked
  generalize get asked (c, w) = done at hgets ⊢
  cases hgets with
  | resolves => exact settle_ne_resolving hfree asked _ _ k
  | _ => exact hfree k

/-- The record of used values holds names of the table alone, and it is what the slots hold, save
for names that are being resolved. -/
structure Consistent (c : Cache σ) : Prop where
  listed : ∀ name, c.table.get? name = none → c.used.get? name = none
  used_iff : ∀ name v, (∀ k, (c.slot name).state ≠ .resolving k) →
    (c.used.get? name = some v ↔ (c.slot name).state = .resolved v)

section Consistent

variable {c : Cache σ} {w : World σ} {name other : String} {v : Value} {k : Nat}

theorem Consistent.used_eq_none (hc : c.Consistent) (hlook : (c.slot name).look none = .begin k) :
    c.used.get? name = none := by
  obtain ⟨-, hfree, hvalue⟩ := Slot.look_eq_begin hlook
  refine Option.eq_none_iff_forall_ne_some.mpr fun v hv => hvalue v ?_
  exact (hc.used_iff name v hfree).mp hv

theorem Consistent.used_settle (hc : c.Consistent) (hlook : (c.slot name).look none = .begin k)
    (outcome : Except Failure Value) :
    (c.settle name k outcome).used.get? other = some v ↔
      c.used.get? other = some v ∨ other = name ∧ outcome = .ok v := by
  change ((c.settle name k outcome).notes other).1 = some v ↔ _
  rw [notes_settle]
  by_cases hother : other = name
  · subst hother
    simp [Attempt.fst_note, notes, hc.used_eq_none hlook]
  · simp [hother, notes]

theorem Consistent.settle (hc : c.Consistent) {symbol : Symbol σ}
    (hsymbol : c.table.get? name = some symbol) (hlook : (c.slot name).look none = .begin k)
    (outcome : Except Failure Value) : (c.settle name k outcome).Consistent where
  listed other hnone := by
    rw [table_settle] at hnone
    refine Option.eq_none_iff_forall_ne_some.mpr fun v hv => ?_
    rcases (hc.used_settle hlook outcome).mp hv with hv | ⟨rfl, -⟩
    · rw [hc.listed other hnone] at hv
      cases hv
    · rw [hsymbol] at hnone
      cases hnone
  used_iff other v hfree := by
    rw [hc.used_settle hlook, slot_settle]
    rw [slot_settle] at hfree
    by_cases hother : other = name
    · subst hother
      simp [hc.used_eq_none hlook, SlotState.settled_eq_resolved_iff]
    · rw [if_neg hother] at hfree ⊢
      simp [hother, hc.used_iff other v hfree]

variable {done : Except Failure Value × Cache σ × World σ}

/-- Requests keep the record in step with the slots. -/
theorem Consistent.gets (hc : c.Consistent) (h : c.Gets w name done) : done.2.1.Consistent := by
  cases h with
  | unknown => exact hc
  | known => exact hc
  | stuck => exact hc
  | resolves hsymbol hlook => exact hc.settle hsymbol hlook _

theorem Consistent.get (hc : c.Consistent) (w : World σ) (name : String) :
    (Cache.get name (c, w)).2.1.Consistent :=
  hc.gets (c.gets w name)

/-- A request adds its own answer to the record, if that is a value, and nothing else. -/
theorem Consistent.used_gets (hc : c.Consistent) (h : c.Gets w name done) :
    done.2.1.used.get? other = some v ↔
      c.used.get? other = some v ∨ other = name ∧ done.1 = .ok v := by
  cases h with
  | unknown => simp
  | known _ hv =>
    refine ⟨.inl, ?_⟩
    rintro (h | ⟨rfl, h⟩)
    · exact h
    · cases h
      exact (hc.used_iff other _ (hv ▸ nofun)).mpr hv
  | stuck => simp
  | resolves hsymbol hlook => exact hc.used_settle hlook _

/-- A request that fails with an error is about its name. -/
theorem Gets.symbol?_of_error (h : c.Gets w name done) {e : EvalError}
    (he : done.1 = .error (.error e)) : e.symbol? = some name := by
  cases h with
  | unknown => cases he; rfl
  | known => cases he
  | stuck => cases he
  | resolves => exact Symbol.symbol?_of_resolve he

/-- The name of a request that fails has no value then. -/
theorem Consistent.used_of_error (hc : c.Consistent) (h : c.Gets w name done) {e : EvalError}
    (he : done.1 = .error (.error e)) : done.2.1.used.get? name = none := by
  cases h with
  | unknown hnone => exact hc.listed name hnone
  | known => cases he
  | stuck => cases he
  | resolves hsymbol hlook =>
    refine Option.eq_none_iff_forall_ne_some.mpr fun v hv => ?_
    rcases (hc.used_settle hlook _).mp hv with hv | ⟨-, hok⟩
    · rw [hc.used_eq_none hlook] at hv
      cases hv
    · exact nomatch he.symm.trans hok

end Consistent

end Cache

/-- Who looks up a name that has a slot leaves the slots as they are. -/
theorem Cache.setSlot_slot {c : Cache σ} {name : String} (h : c.slot name ≠ .vacant) :
    c.setSlot name (c.slot name) = c := by
  unfold Cache.slot at h
  cases hslot : c.slots.get? name with
  | none => exact absurd (by rw [hslot]; rfl) h
  | some slot =>
    simp only [Cache.setSlot, Cache.slot, hslot, Option.getD_some, NameMap.insert_of_get? hslot]

theorem Cache.begin_setSlot (c : Cache σ) (name : String) (slot : Slot) (attempt : Nat) :
    (c.setSlot name slot).begin name attempt = c.begin name attempt := by
  simp only [Cache.begin, Cache.setSlot, NameMap.insert_insert]

namespace Callers

variable {s t : Callers σ} {i : Nat} {name : String}

theorem advance_succ (h : s.step? i = some t) (steps : Nat) :
    s.advance i (steps + 1) = t.advance i steps := by
  rw [advance, h]

theorem advance_of_none (h : s.step? i = none) (steps : Nat) : s.advance i steps = s := by
  cases steps with
  | zero => rfl
  | succ steps => rw [advance, h]

theorem advance_of_answered {result : Except Failure Value}
    (hi : s.callers[i]? = some ⟨name, .answered result⟩) (steps : Nat) : s.advance i steps = s :=
  advance_of_none (by simp [step?, hi]) steps

theorem advance_of_moves {phase phase' : Phase} {cache : Cache σ} {world : World σ}
    (hi : s.callers[i]? = some ⟨name, phase⟩)
    (h : s.Moves i name phase (move ⟨cache, world, s.callers⟩ i phase')) (steps : Nat) :
    ∃ t : Callers σ, s.advance i (steps + 1) = t.advance i steps ∧ t.cache = cache ∧
      t.world = world ∧ t.callers[i]? = some ⟨name, phase'⟩ :=
  ⟨_, advance_succ (step?_of_moves hi h) steps, rfl, rfl,
    getElem?_move_self (s := ⟨cache, world, s.callers⟩) hi phase'⟩

/-- A caller whom nobody disturbs does what the sequential account of a request says. -/
theorem advance_eq_get (hi : s.callers[i]? = some ⟨name, .arriving⟩)
    (hfree : ∀ k, (s.cache.slot name).state ≠ .resolving k) :
    (s.advance i 6).cache = (Cache.get name (s.cache, s.world)).2.1 ∧
      (s.advance i 6).world = (Cache.get name (s.cache, s.world)).2.2 ∧
      (s.advance i 6).callers[i]? =
        some ⟨name, .answered (Cache.get name (s.cache, s.world)).1⟩ := by
  have hgets := s.cache.gets s.world name
  generalize Cache.get name (s.cache, s.world) = done at hgets ⊢
  cases hgets with
  | unknown hnone =>
    obtain ⟨t, ht, hcache, hworld, hanswered⟩ := advance_of_moves hi (.refuse hnone) 5
    rw [ht, advance_of_answered hanswered]
    exact ⟨hcache, hworld, hanswered⟩
  | @known v hsome hv =>
    have hslot : s.cache.slot name ≠ .vacant := fun h => by simp [h, Slot.vacant] at hv
    obtain ⟨t, ht, hcache, hworld, hlooking⟩ := advance_of_moves hi (.enter hsome) 5
    rw [Cache.setSlot_slot hslot] at hcache
    have hlook : (t.cache.slot name).look none = .answer (.ok v) := by
      simp [hcache, Slot.look, hv]
    obtain ⟨u, hu, hcache', hworld', hanswered⟩ := advance_of_moves hlooking (.answer hlook) 4
    rw [ht, hu, advance_of_answered hanswered]
    exact ⟨hcache'.trans hcache, hworld'.trans hworld, hanswered⟩
  | stuck hk => exact absurd hk (hfree _)
  | @resolves symbol k hsymbol hlook =>
    -- It enters, begins, runs the resolver, records, publishes, and wakes those who wait.
    obtain ⟨s₁, h₁, hcache₁, hworld₁, hi₁⟩ := advance_of_moves hi (.enter (hsymbol ▸ rfl)) 5
    have hlook₁ : (s₁.cache.slot name).look none = .begin k := by
      rw [hcache₁, Cache.slot_setSlot, if_pos rfl, hlook]
    obtain ⟨s₂, h₂, hcache₂, hworld₂, hi₂⟩ := advance_of_moves hi₁ (.begin hlook₁) 4
    rw [hcache₁, Cache.begin_setSlot] at hcache₂
    have hsymbol₂ : s₂.cache.table.get? name = some symbol := by rw [hcache₂]; exact hsymbol
    obtain ⟨s₃, h₃, hcache₃, hworld₃, hi₃⟩ := advance_of_moves hi₂ (.conclude hsymbol₂) 3
    obtain ⟨s₄, h₄, hcache₄, hworld₄, hi₄⟩ := advance_of_moves hi₃ .record 2
    obtain ⟨s₅, h₅, hcache₅, hworld₅, hi₅⟩ := advance_of_moves hi₄ .publish 1
    have h₆ := advance_succ (step?_of_moves hi₅ .wake) 0
    rw [h₁, h₂, h₃, h₄, h₅, h₆, ← hworld₁, ← hworld₂]
    refine ⟨?_, ?_, getElem?_move_self (getElem?_wake hi₅ (by simp) name) _⟩
    · change s₅.cache = _
      rw [hcache₅, hcache₄, hcache₃, hcache₂]
      rfl
    · change s₅.world = _
      rw [hworld₅, hworld₄, hworld₃]

end Callers

/-- A name whose attempts have come to no value has none in the records. -/
theorem Attempt.fst_notes_eq_none {attempts : List Attempt}
    (h : ∀ a ∈ attempts, ∀ v, a.outcome ≠ .ok v) : (notes attempts).1 = none := by
  induction attempts with
  | nil => rfl
  | cons a earlier ih =>
    refine Option.eq_none_iff_forall_ne_some.mpr fun v hv => ?_
    rcases (fst_note _ _ v).mp hv with hok | ⟨-, hearlier⟩
    · exact h a List.mem_cons_self v hok
    · rw [ih fun b hb => h b (List.mem_cons_of_mem a hb)] at hearlier
      cases hearlier

/-- The records and the slot agree on the value of a name. -/
theorem Attempt.InOrder.fst_notes_iff {attempts : List Attempt} (h : InOrder attempts) (v : Value) :
    (notes attempts).1 = some v ↔ (Slot.after attempts).state = .resolved v := by
  cases attempts with
  | nil => simp [notes, Slot.after, Slot.vacant]
  | cons a earlier =>
    rw [notes, fst_note, fst_notes_eq_none h.2.1]
    simp [Slot.after, SlotState.settled_eq_resolved_iff]

namespace Course

/-- A name with nothing in the past has nothing in the records. -/
theorem StageOf.notes_eq_none {r : Course σ} {name : String} (h : r.StageOf name)
    (hnone : r.attempts name = []) : r.now.cache.notes name = (none, none) := by
  unfold StageOf at h
  rw [hnone] at h
  cases h with
  | idle _ _ hnotes => exact hnotes
  | begun _ _ _ hnotes => exact hnotes

/-- The steps of one caller, with nothing in between. -/
theorem run_steps (r : Course σ) (i steps : Nat) :
    (r.run (List.replicate steps (.step i))).now = r.now.advance i steps := by
  induction steps generalizing r with
  | zero => rfl
  | succ steps ih =>
    rw [List.replicate_succ, run_cons, ih, next]
    cases hstep : r.now.step? i with
    | none => rw [Callers.advance_of_none hstep, Callers.advance_of_none hstep]
    | some t => rw [Callers.advance_succ hstep]

/-- What happens when a request comes in and is answered before anything else. -/
def asking (r : Course σ) (name : String) : List (Event σ) :=
  .arrive name :: List.replicate 6 (.step r.now.callers.length)

theorem run_asking {r : Course σ} {name : String}
    (hfree : ∀ k, (r.now.cache.slot name).state ≠ .resolving k) {answer : Except Failure Value}
    {cache : Cache σ} {world : World σ}
    (hget : Cache.get name (r.now.cache, r.now.world) = (answer, cache, world)) :
    (r.run (r.asking name)).now.cache = cache ∧ (r.run (r.asking name)).now.world = world ∧
      (r.run (r.asking name)).now.callers[r.now.callers.length]? =
        some ⟨name, .answered answer⟩ := by
  have hi : (r.next (.arrive name)).now.callers[r.now.callers.length]? =
      some ⟨name, .arriving⟩ := by
    simp [next]
  rw [asking, run_cons, run_steps]
  obtain ⟨hcache, hworld, hanswer⟩ := Callers.advance_eq_get hi hfree
  exact ⟨hcache.trans (congrArg (·.2.1) hget), hworld.trans (congrArg (·.2.2) hget),
    hanswer.trans (congrArg (fun done => some (Caller.mk name (.answered done.1))) hget)⟩

/-- Every attempt of the past is on a name of the table. -/
def Listed (table : Table σ) (r : Course σ) : Prop :=
  r.now.cache.table = table ∧ ∀ a ∈ r.past, (table.get? a.name).isSome

theorem Listed.next {table : Table σ} {r : Course σ} (h : r.Listed table) (e : Event σ) :
    (r.next e).Listed table := by
  cases e with
  | arrive name => exact h
  | host state => exact h
  | step i =>
    rcases r.next_step_cases i with hsame | ⟨name, phase, t, hi, hmoves, hnext⟩
    · rwa [hsame]
    · rw [hnext]
      refine ⟨hmoves.table_eq.trans h.1, fun a ha => ?_⟩
      rcases List.mem_append.mp ha with ha | ha
      · rw [hmoves.concluded_eq hi] at ha
        split at ha
        next hsymbol =>
          obtain rfl := List.mem_singleton.mp ha
          rw [← h.1, hsymbol]
          rfl
        next => cases ha
      · exact h.2 a ha

theorem listed_run (table : Table σ) (host : σ) (events : List (Event σ)) :
    ((start table host).run events).Listed table :=
  run_keeps (fun _ e hr => hr.next e) ⟨rfl, fun _ ha => (List.not_mem_nil ha).elim⟩ events

/-- No attempt is made on a name that the table does not have. -/
theorem Listed.attempts_eq_nil {table : Table σ} {r : Course σ} {name : String}
    (h : r.Listed table) (hnone : table.get? name = none) : r.attempts name = [] := by
  refine List.filter_eq_nil_iff.mpr fun a ha hname => ?_
  have hsome := h.2 a ha
  rw [of_decide_eq_true hname, hnone] at hsome
  cases hsome

end Course

namespace Cache

/-- Some course of a fresh cache over the table leads to the cache. -/
def Reachable (table : Table σ) (c : Cache σ) : Prop :=
  ∃ host events, ((Course.start table host).run events).now.cache = c

theorem reachable_new (table : Table σ) (host : σ) : (new table).Reachable table :=
  ⟨host, [], rfl⟩

variable {table : Table σ} {c : Cache σ}

theorem Reachable.consistent (hc : c.Reachable table) : c.Consistent := by
  obtain ⟨host, events, rfl⟩ := hc
  have hr := Course.sound_run table host events
  have hlisted := Course.listed_run table host events
  generalize (Course.start table host).run events = r at hr hlisted
  refine ⟨fun name hnone => ?_, fun name v hfree => ?_⟩
  · have hattempts := hlisted.attempts_eq_nil (hlisted.1 ▸ hnone)
    exact congrArg Prod.fst ((hr.stage name).notes_eq_none hattempts)
  · obtain ⟨-, hafter, hnotes⟩ := (hr.stage name).of_not_resolving hfree
    rw [hafter, ← (hr.inOrder name).fst_notes_iff, ← hnotes]
    rfl

/-- What a request does to a cache depends on the host's state alone. -/
theorem snd_get_congr (c : Cache σ) (name : String) {w w' : World σ} (h : w.host = w'.host) :
    (get name (c, w)).2.1 = (get name (c, w')).2.1 := by
  simp only [get]
  split
  · rfl
  · split
    · rfl
    · rfl
    · rw [Symbol.resolve_fst_congr _ name h]

/-- A request leads from one reachable cache to another. -/
theorem Reachable.get (hc : c.Reachable table) (w : World σ) (name : String) :
    (get name (c, w)).2.1.Reachable table := by
  by_cases hfree : ∀ k, (c.slot name).state ≠ .resolving k
  · obtain ⟨host, events, rfl⟩ := hc
    generalize hr : (Course.start table host).run events = r at hfree ⊢
    have hasked := Course.run_asking (r := r.next (.host w.host)) hfree rfl
    refine ⟨host, events ++ .host w.host :: (r.next (.host w.host)).asking name, ?_⟩
    rw [Course.run_append, hr, Course.run_cons]
    exact hasked.1.trans (snd_get_congr _ name rfl)
  · obtain ⟨k, hk⟩ := Classical.not_forall_not.mp hfree
    have hgets := c.gets w name
    generalize Cache.get name (c, w) = done at hgets ⊢
    cases hgets with
    | resolves _ hlook => exact absurd hk ((Slot.look_eq_begin hlook).2.1 k)
    | _ => exact hc

/-- An evaluation leads from one reachable cache to another. -/
theorem Reachable.evaluate (hc : c.Reachable table) (w : World σ) (tree : Chain) :
    (tree.evaluate Cache.get (c, w)).2.1.Reachable table := by
  rw [← tree.run_inquiry]
  exact tree.inquiry.run_keeps (P := fun s : Cache σ × World σ => s.1.Reachable table)
    (fun name s hs => hs.get s.2 name) hc

end Cache

end FilterLang
