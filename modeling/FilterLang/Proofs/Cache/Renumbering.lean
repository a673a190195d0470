import FilterLang.Proofs.Cache.Requests
import FilterLang.Proofs.Cache.Transparent

/-! The numbers of attempts do not matter. They serve to tell those who waited for an attempt from
all others, so they can be counted from another base, and an attempt that has failed can be
forgotten once nobody waits for it. Two caches whose slots differ in nothing else go through the
same steps: every request gets the same answer from both, one after the other or among callers at
the same time. -/

namespace FilterLang

variable {σ : Type}

/-- One attempt has these numbers, counted from the one base and from the other. -/
def SameAttempt (b b' k k' : Nat) : Prop := b ≤ k ∧ k + b' = k' + b

/-- The next request begins an attempt: the slot is vacant, or it has failed before the base. -/
def SlotState.IsFree (b : Nat) : SlotState → Prop
  | .vacant => True
  | .failed k _ => k < b
  | _ => False

/-- The states are the same but for the numbers from the bases on, and for attempts before them. -/
inductive SlotState.Like (b b' : Nat) : SlotState → SlotState → Prop
  | free {s s' : SlotState} : s.IsFree b → s'.IsFree b' → Like b b' s s'
  | resolving {k k' : Nat} : SameAttempt b b' k k' → Like b b' (.resolving k) (.resolving k')
  | resolved (v : Value) : Like b b' (.resolved v) (.resolved v)
  | failed {k k' : Nat} (e : EvalError) :
      SameAttempt b b' k k' → Like b b' (.failed k e) (.failed k' e)

/-- The slots are the same in this sense, and so will be the numbers of their next attempts. -/
structure Slot.Like (b b' : Nat) (s s' : Slot) : Prop where
  state : s.state.Like b b' s'.state
  next : SameAttempt b b' (s.attempts + 1) (s'.attempts + 1)

/-- What a caller does next is the same. -/
inductive Look.Like (b b' : Nat) : Look → Look → Prop
  | answer (result : Except EvalError Value) : Like b b' (.answer result) (.answer result)
  | wait {k k' : Nat} : SameAttempt b b' k k' → Like b b' (.wait k) (.wait k')
  | begin {k k' : Nat} : SameAttempt b b' k k' → Like b b' (.begin k) (.begin k')

/-- Two requests have come equally far. -/
inductive Phase.Like (b b' : Nat) : Phase → Phase → Prop
  | arriving : Like b b' .arriving .arriving
  | looking {waited waited' : Option Nat} : Option.Rel (SameAttempt b b') waited waited' →
      Like b b' (.looking waited) (.looking waited')
  | asleep {k k' : Nat} : SameAttempt b b' k k' → Like b b' (.asleep k) (.asleep k')
  | resolving {k k' : Nat} : SameAttempt b b' k k' → Like b b' (.resolving k) (.resolving k')
  | recording {k k' : Nat} (outcome : Except Failure Value) : SameAttempt b b' k k' →
      Like b b' (.recording k outcome) (.recording k' outcome)
  | publishing {k k' : Nat} (outcome : Except Failure Value) : SameAttempt b b' k k' →
      Like b b' (.publishing k outcome) (.publishing k' outcome)
  | waking (outcome : Except Failure Value) : Like b b' (.waking outcome) (.waking outcome)
  | answered (result : Except Failure Value) : Like b b' (.answered result) (.answered result)

section

variable {b b' : Nat}

theorem SameAttempt.refl (k : Nat) : SameAttempt 0 0 k k := ⟨Nat.zero_le k, rfl⟩

theorem SameAttempt.succ {k k' : Nat} (h : SameAttempt b b' k k') :
    SameAttempt b b' (k + 1) (k' + 1) := by
  unfold SameAttempt at h ⊢
  omega

theorem SameAttempt.eq_iff {k k' l l' : Nat} (hk : SameAttempt b b' k k')
    (hl : SameAttempt b b' l l') : k = l ↔ k' = l' := by
  unfold SameAttempt at hk hl
  omega

theorem SlotState.Like.refl (s : SlotState) : s.Like 0 0 s := by
  cases s with
  | vacant => exact .free trivial trivial
  | resolving k => exact .resolving (.refl k)
  | resolved v => exact .resolved v
  | failed k e => exact .failed e (.refl k)

theorem Slot.Like.refl (s : Slot) : s.Like 0 0 s := ⟨.refl s.state, .refl _⟩

theorem Phase.Like.refl (p : Phase) : p.Like 0 0 p := by
  cases p with
  | arriving => exact .arriving
  | looking waited =>
    refine .looking ?_
    cases waited with
    | none => exact .none
    | some k => exact .some (.refl k)
  | asleep k => exact .asleep (.refl k)
  | resolving k => exact .resolving (.refl k)
  | recording k outcome => exact .recording outcome (.refl k)
  | publishing k outcome => exact .publishing outcome (.refl k)
  | waking outcome => exact .waking outcome
  | answered result => exact .answered result

theorem SlotState.Like.settled {k k' : Nat} (h : SameAttempt b b' k k')
    (outcome : Except Failure Value) :
    (SlotState.settled k outcome).Like b b' (SlotState.settled k' outcome) := by
  rcases outcome with (e | _) | v
  · exact .failed e h
  · exact .free trivial trivial
  · exact .resolved v

/-- A free slot has a new attempt begun by all who have not waited for one before the base. -/
theorem SlotState.IsFree.look {s : Slot} {waited : Option Nat} (h : s.state.IsFree b)
    (hwaited : ∀ k, waited = some k → b ≤ k) : s.look waited = .begin (s.attempts + 1) := by
  obtain ⟨attempts, state⟩ := s
  cases state with
  | vacant => rfl
  | resolving k => exact h.elim
  | resolved v => exact h.elim
  | failed k e =>
    have hother : waited ≠ some k := fun hk => absurd (hwaited k hk) (Nat.not_le.mpr h)
    simp only [Slot.look, hother, ↓reduceIte]

theorem Slot.Like.look {s s' : Slot} (h : s.Like b b' s') {waited waited' : Option Nat}
    (hwaited : Option.Rel (SameAttempt b b') waited waited') :
    Look.Like b b' (s.look waited) (s'.look waited') := by
  obtain ⟨attempts, state⟩ := s
  obtain ⟨attempts', state'⟩ := s'
  obtain ⟨hstate, hnext⟩ := h
  cases hstate with
  | free hfree hfree' =>
    have hbase : ∀ k, waited = some k → b ≤ k := by
      rintro k rfl
      cases hwaited with
      | some h => exact h.1
    have hbase' : ∀ k', waited' = some k' → b' ≤ k' := by
      rintro k' rfl
      cases hwaited with
      | some h => unfold SameAttempt at h; omega
    rw [SlotState.IsFree.look hfree hbase, SlotState.IsFree.look hfree' hbase']
    exact .begin hnext
  | resolving h => exact .wait h
  | resolved v => exact .answer (.ok v)
  | @failed k k' e hk =>
    have hsame : waited = some k ↔ waited' = some k' := by
      cases hwaited with
      | none => simp
      | some hl => simpa using hl.eq_iff hk
    by_cases hown : waited = some k
    · simpa only [Slot.look, hown, hsame.mp hown, ↓reduceIte] using .answer (.error e)
    · simpa only [Slot.look, hown, mt hsame.mpr hown, ↓reduceIte] using .begin hnext

end

/-- The caches are the same but for the numbers of attempts, which are counted from two bases for
every name. -/
structure Cache.Like (b b' : String → Nat) (c c' : Cache σ) : Prop where
  table : c.table = c'.table
  slot : ∀ name, (c.slot name).Like (b name) (b' name) (c'.slot name)
  used : c.used = c'.used
  failed : c.failed = c'.failed

/-- The callers ask for the same name and have come equally far. -/
structure Caller.Like (b b' : String → Nat) (x x' : Caller) : Prop where
  name : x.name = x'.name
  phase : x.phase.Like (b x.name) (b' x.name) x'.phase

/-- The callers and their caches are the same but for the numbers of attempts. -/
structure Callers.Like (b b' : String → Nat) (s s' : Callers σ) : Prop where
  cache : s.cache.Like b b' s'.cache
  world : s.world = s'.world
  callers : ∀ i : Nat, Option.Rel (Caller.Like b b') s.callers[i]? s'.callers[i]?

variable {b b' : String → Nat}

namespace Cache

variable {c c' : Cache σ} {name : String} {k k' : Nat}

/-- A slot may be put in the place of another one on both sides. -/
theorem Like.setSlot (h : c.Like b b' c') {s s' : Slot} (hs : s.Like (b name) (b' name) s') :
    (c.setSlot name s).Like b b' (c'.setSlot name s') where
  table := h.table
  slot other := by
    rw [slot_setSlot, slot_setSlot]
    split
    next hname => exact hname ▸ hs
    next => exact h.slot other
  used := h.used
  failed := h.failed

theorem Like.begin (h : c.Like b b' c') (hk : SameAttempt (b name) (b' name) k k') :
    (c.begin name k).Like b b' (c'.begin name k') :=
  h.setSlot ⟨.resolving hk, hk.succ⟩

theorem Like.record (h : c.Like b b' c') (name : String) (outcome : Except Failure Value) :
    (c.record name outcome).Like b b' (c'.record name outcome) where
  table := by rw [table_record, table_record, h.table]
  slot other := by
    rw [slot_record, slot_record]
    exact h.slot other
  used := by rcases outcome with (e | _) | v <;> simp only [Cache.record, h.used]
  failed := by rcases outcome with (e | _) | v <;> simp only [Cache.record, h.failed]

theorem Like.publish (h : c.Like b b' c') (hk : SameAttempt (b name) (b' name) k k')
    (outcome : Except Failure Value) :
    (c.publish name k outcome).Like b b' (c'.publish name k' outcome) :=
  h.setSlot ⟨.settled hk outcome, (h.slot name).next⟩

theorem Like.get (h : c.Like b b' c') (w : World σ) (name : String) :
    (get name (c, w)).1 = (get name (c', w)).1 ∧
      (get name (c, w)).2.1.Like b b' (get name (c', w)).2.1 ∧
      (get name (c, w)).2.2 = (get name (c', w)).2.2 := by
  have hlook : Look.Like (b name) (b' name) ((c.slot name).look none) ((c'.slot name).look none) :=
    (h.slot name).look .none
  simp only [Cache.get, ← h.table]
  cases c.table.get? name with
  | none => exact ⟨rfl, h, rfl⟩
  | some symbol =>
    simp only
    generalize (c.slot name).look none = look at hlook ⊢
    generalize (c'.slot name).look none = look' at hlook ⊢
    cases hlook with
    | answer result => exact ⟨rfl, h, rfl⟩
    | wait => exact ⟨rfl, h, rfl⟩
    | begin hk => exact ⟨rfl, ((h.begin hk).record name _).publish hk _, rfl⟩

/-- Requests one after the other get the same replies. -/
theorem Like.replies (h : c.Like b b' c') (questions : List Question) (w : World σ) :
    (replies Cache.get questions (c, w)).1 = (replies Cache.get questions (c', w)).1 ∧
      (replies Cache.get questions (c, w)).2.1.Like b b'
        (replies Cache.get questions (c', w)).2.1 ∧
      (replies Cache.get questions (c, w)).2.2 = (replies Cache.get questions (c', w)).2.2 := by
  refine replies_related (R := fun s s' : Cache σ × World σ => s.1.Like b b' s'.1 ∧ s.2 = s'.2)
    (fun name s s' hs => ?_) questions ⟨h, rfl⟩
  obtain ⟨c, w⟩ := s
  obtain ⟨c', w'⟩ := s'
  obtain ⟨hc, hw⟩ := hs
  obtain rfl : w = w' := hw
  exact hc.get w name

end Cache

theorem Caller.Like.wake {x x' : Caller} (h : x.Like b b' x') (name : String) :
    (x.wake name).Like b b' (x'.wake name) := by
  obtain ⟨n, p⟩ := x
  obtain ⟨n', p'⟩ := x'
  obtain ⟨hname, hphase⟩ := h
  obtain rfl : n = n' := hname
  simp only [Caller.wake]
  split
  · cases hphase with
    | asleep hk => exact ⟨rfl, .looking (.some hk)⟩
    | _ => exact ⟨rfl, by constructor <;> assumption⟩
  · exact ⟨rfl, hphase⟩

namespace Callers

variable {s s' : Callers σ} {i : Nat} {name : String} {old old' p p' : Phase}

/-- There is the same caller on both sides, or none. -/
theorem Like.cases_callers (h : s.Like b b' s') (i : Nat) :
    (s.callers[i]? = none ∧ s'.callers[i]? = none) ∨
      ∃ name p p', s.callers[i]? = some ⟨name, p⟩ ∧ s'.callers[i]? = some ⟨name, p'⟩ ∧
        p.Like (b name) (b' name) p' := by
  have hi := h.callers i
  generalize s.callers[i]? = x at hi ⊢
  generalize s'.callers[i]? = x' at hi ⊢
  cases hi with
  | none => exact .inl ⟨rfl, rfl⟩
  | @some x x' hx =>
    obtain ⟨name, p⟩ := x
    obtain ⟨name', p'⟩ := x'
    obtain ⟨hname, hphase⟩ := hx
    obtain rfl : name = name' := hname
    exact .inr ⟨name, p, p', rfl, rfl, hphase⟩

theorem Like.length_eq (h : s.Like b b' s') : s.callers.length = s'.callers.length := by
  have hnone : ∀ i, s.callers.length ≤ i ↔ s'.callers.length ≤ i := by
    intro i
    rw [← List.getElem?_eq_none_iff, ← List.getElem?_eq_none_iff]
    rcases h.cases_callers i with ⟨hi, hi'⟩ | ⟨name, p, p', hi, hi', -⟩
    · exact iff_of_true hi hi'
    · simp [hi, hi']
  exact Nat.le_antisymm ((hnone _).mpr Nat.le.refl) ((hnone _).mp Nat.le.refl)

/-- The answers are the same. -/
theorem Like.answered_iff (h : s.Like b b' s') (i : Nat) (name : String)
    (result : Except Failure Value) :
    s.callers[i]? = some ⟨name, .answered result⟩ ↔
      s'.callers[i]? = some ⟨name, .answered result⟩ := by
  rcases h.cases_callers i with ⟨hi, hi'⟩ | ⟨n, p, p', hi, hi', hphase⟩
  · simp [hi, hi']
  · rw [hi, hi']
    cases hphase <;> simp

theorem Like.withCache (h : s.Like b b' s') {c c' : Cache σ} (hc : c.Like b b' c') :
    Callers.Like b b' { s with cache := c } { s' with cache := c' } :=
  ⟨hc, h.world, h.callers⟩

theorem Like.move (h : s.Like b b' s') (hi : s.callers[i]? = some ⟨name, old⟩)
    (hi' : s'.callers[i]? = some ⟨name, old'⟩) (hp : p.Like (b name) (b' name) p') :
    (s.move i p).Like b b' (s'.move i p') where
  cache := h.cache
  world := h.world
  callers j := by
    rw [getElem?_move, getElem?_move]
    split
    next hij =>
      subst hij
      rw [hi, hi']
      exact .some ⟨rfl, hp⟩
    next => exact h.callers j

/-- Those who wait are woken on both sides. -/
theorem Like.wake (h : s.Like b b' s') (name : String) :
    Callers.Like b b' { s with callers := s.callers.map (Caller.wake name) }
      { s' with callers := s'.callers.map (Caller.wake name) } where
  cache := h.cache
  world := h.world
  callers j := by
    rw [List.getElem?_map, List.getElem?_map]
    have hj := h.callers j
    generalize s.callers[j]? = x at hj ⊢
    generalize s'.callers[j]? = x' at hj ⊢
    cases hj with
    | none => exact .none
    | some hx => exact .some (hx.wake name)

theorem Like.look (h : s.Like b b' s') (hi : s.callers[i]? = some ⟨name, old⟩)
    (hi' : s'.callers[i]? = some ⟨name, old'⟩) {waited waited' : Option Nat}
    (hwaited : Option.Rel (SameAttempt (b name) (b' name)) waited waited') :
    (s.look i name waited).Like b b' (s'.look i name waited') := by
  have hlook := (h.cache.slot name).look hwaited
  unfold Callers.look
  generalize (s.cache.slot name).look waited = look at hlook ⊢
  generalize (s'.cache.slot name).look waited' = look' at hlook ⊢
  cases hlook with
  | answer result => exact h.move hi hi' (.answered _)
  | wait hk => exact h.move hi hi' (.asleep hk)
  | begin hk => exact (h.withCache (h.cache.begin hk)).move hi hi' (.resolving hk)

theorem Like.resolve (h : s.Like b b' s') (hi : s.callers[i]? = some ⟨name, old⟩)
    (hi' : s'.callers[i]? = some ⟨name, old'⟩) {k k' : Nat}
    (hk : SameAttempt (b name) (b' name) k k') :
    (s.resolve i name k).Like b b' (s'.resolve i name k') := by
  unfold Callers.resolve
  rw [← h.cache.table, ← h.world]
  cases s.cache.table.get? name with
  | none => exact h.move hi hi' (.answered _)
  | some symbol =>
    have hworld : Callers.Like b b' { s with world := (symbol.resolve name s.world).2 }
        { s' with world := (symbol.resolve name s.world).2 } := ⟨h.cache, rfl, h.callers⟩
    exact hworld.move hi hi' (.recording _ hk)

/-- What a caller can do on the one side, it can do on the other. -/
theorem Like.step? (h : s.Like b b' s') (i : Nat) :
    Option.Rel (Callers.Like b b') (s.step? i) (s'.step? i) := by
  unfold Callers.step?
  rcases h.cases_callers i with ⟨hi, hi'⟩ | ⟨name, p, p', hi, hi', hphase⟩
  · rw [hi, hi']
    exact .none
  · rw [hi, hi']
    simp only [Option.bind_some]
    cases hphase with
    | arriving =>
      simp only [← h.cache.table]
      cases s.cache.table.get? name with
      | none => exact .some (h.move hi hi' (.answered _))
      | some symbol =>
        have henter := h.withCache (h.cache.setSlot (h.cache.slot name))
        exact .some (henter.move hi hi' (.looking .none))
    | looking hwaited => exact .some (h.look hi hi' hwaited)
    | asleep hk => exact .none
    | resolving hk => exact .some (h.resolve hi hi' hk)
    | recording outcome hk =>
      have hrecord := h.withCache (h.cache.record name outcome)
      exact .some (hrecord.move hi hi' (.publishing outcome hk))
    | publishing outcome hk =>
      have hpublish := h.withCache (h.cache.publish hk outcome)
      exact .some (hpublish.move hi hi' (.waking outcome))
    | waking outcome =>
      have hwoken := getElem?_wake hi (by simp) name
      have hwoken' := getElem?_wake hi' (by simp) name
      exact .some ((h.wake name).move hwoken hwoken' (.answered outcome))
    | answered result => exact .none

end Callers

namespace Course

/-- Whatever happens, it happens on both sides. -/
theorem like_next {r r' : Course σ} (h : r.now.Like b b' r'.now) (e : Event σ) :
    (r.next e).now.Like b b' (r'.next e).now := by
  cases e with
  | arrive name =>
    refine ⟨h.cache, h.world, fun i => ?_⟩
    simp only [next, List.getElem?_append, h.length_eq]
    split
    · exact h.callers i
    · cases i - r'.now.callers.length with
      | zero => exact .some ⟨rfl, .arriving⟩
      | succ j => exact .none
  | step i =>
    have hstep := h.step? i
    simp only [next]
    generalize r.now.step? i = t at hstep ⊢
    generalize r'.now.step? i = t' at hstep ⊢
    cases hstep with
    | none => exact h
    | some ht => exact ht
  | host state => exact ⟨h.cache, by simp only [next, h.world], h.callers⟩

theorem like_run {r r' : Course σ} (h : r.now.Like b b' r'.now) (events : List (Event σ)) :
    (r.run events).now.Like b b' (r'.run events).now := by
  induction events generalizing r r' with
  | nil => exact h
  | cons e events ih => exact ih (like_next h e)

end Course

end FilterLang
