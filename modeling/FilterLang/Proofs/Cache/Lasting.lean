import FilterLang.Proofs.Cache.Deeds

/-! What lasts. A cache keeps its values, and a name that is missing or stands for data without a
value stays so, since the table of a cache does not change. So an evaluation that ends with a truth
value, with sides of kinds that do not go together, or at such a name will always end so on that
cache, whatever is done in its session: requests to it and to other caches that share its
resolvers, which may fail and crash, and entries put into the table that it was made from. -/

namespace FilterLang

variable {σ : Type}

namespace Cache

variable {c c' : Cache σ} {name : String} {w : World σ} {answer : Except Failure Value}

/-- Every later request for the name gets the answer, a value even without any effect. -/
def Keeps (c : Cache σ) (name : String) : Except Failure Value → Prop
  | .ok v => (c.table.get? name).isSome ∧ (c.slot name).state = .resolved v
  | .error f => ∀ w, (get name (c, w)).1 = .error f

/-- A value that is known is given without any effect. -/
theorem Keeps.get_ok {v : Value} (h : c.Keeps name (.ok v)) (w : World σ) :
    get name (c, w) = (.ok v, c, w) := by
  obtain ⟨hsome, hv⟩ := h
  obtain ⟨symbol, hsymbol⟩ := Option.isSome_iff_exists.mp hsome
  simp only [get, hsymbol, Slot.look, hv]
  rfl

theorem Keeps.fst_get (h : c.Keeps name answer) (w : World σ) : (get name (c, w)).1 = answer := by
  cases answer with
  | ok v => rw [h.get_ok]
  | error f => exact h w

/-- An answer depends on the entry and the slot of its name. -/
theorem fst_get_congr (htable : c'.table = c.table) (hslot : c'.slot name = c.slot name)
    (w : World σ) : (get name (c', w)).1 = (get name (c, w)).1 := by
  simp only [get, htable, hslot]
  split
  · rfl
  · split <;> rfl

theorem fst_get_of_begin {symbol : Symbol σ} {k : Nat} (hsymbol : c.table.get? name = some symbol)
    (hlook : (c.slot name).look none = .begin k) (w : World σ) :
    (get name (c, w)).1 = (symbol.resolve name w).1 := by
  simp only [get, hsymbol, hlook]

/-- After an attempt that has failed, another one can begin. -/
theorem look_settle_error (c : Cache σ) (name : String) (k : Nat) (f : Failure) :
    ((c.settle name k (.error f)).slot name).look none = .begin (k + 1) := by
  rw [slot_settle, if_pos rfl]
  cases f <;> rfl

/-- A request after an attempt that has failed begins another one. -/
theorem fst_get_settle_error {symbol : Symbol σ} (hsymbol : c.table.get? name = some symbol)
    (k : Nat) (f : Failure) (w : World σ) :
    (get name (c.settle name k (.error f), w)).1 = (symbol.resolve name w).1 :=
  fst_get_of_begin (by rw [table_settle, hsymbol]) (c.look_settle_error name k f) w

/-- What a cache keeps, it keeps at every request. -/
theorem Keeps.get (h : c.Keeps name answer) (asked : String) (w : World σ) :
    (Cache.get asked (c, w)).2.1.Keeps name answer := by
  have hgets := c.gets w asked
  have hanswer := h.fst_get w
  generalize hdone : Cache.get asked (c, w) = done at hgets
  cases hgets with
  | @resolves symbol k hsymbol hlook =>
    by_cases hname : name = asked
    · subst hname
      cases answer with
      | ok v => exact absurd h.2 ((Slot.look_eq_begin hlook).2.2 v)
      | error f =>
        rw [fst_get_of_begin hsymbol hlook] at hanswer
        rw [hanswer]
        intro w'
        rw [fst_get_settle_error hsymbol, ← fst_get_of_begin hsymbol hlook]
        exact h w'
    · have hslot : (c.settle asked k (symbol.resolve asked w).1).slot name = c.slot name := by
        simp [hname]
      cases answer with
      | ok v => exact ⟨by simpa using h.1, by rw [hslot]; exact h.2⟩
      | error f =>
        exact fun w' => (fst_get_congr (c.table_settle asked k _) hslot w').trans (h w')
  | _ => exact h

/-- An error that is no reason of a resolver is the answer at every request. -/
theorem keeps_of_error {e : EvalError} (h : (Cache.get name (c, w)).1 = .error (.error e))
    (hreason : e.reason? = none) : c.Keeps name (.error (.error e)) := by
  intro w'
  have hgets := c.gets w name
  generalize hdone : Cache.get name (c, w) = done at hgets h
  cases hgets with
  | unknown hnone =>
    cases h
    simp only [Cache.get, hnone]
  | known => cases h
  | stuck => cases h
  | @resolves symbol k hsymbol hlook =>
    rw [fst_get_of_begin hsymbol hlook, ← h]
    cases symbol with
    | value v => rfl
    | json data =>
      simp only [Symbol.resolve]
      split <;> rfl
    | resolver run =>
      simp only [Symbol.resolve] at h
      generalize (run w.host).1 = outcome at h
      cases outcome <;> cases h
      cases hreason

theorem keeps_of_ok {v : Value} (h : (Cache.get name (c, w)).1 = .ok v) :
    (Cache.get name (c, w)).2.1.Keeps name (.ok v) := by
  have hgets := c.gets w name
  generalize hdone : Cache.get name (c, w) = done at hgets h
  cases hgets with
  | unknown => cases h
  | known hsome hv =>
    cases h
    exact ⟨hsome, hv⟩
  | stuck => cases h
  | @resolves symbol k hsymbol hlook =>
    refine ⟨by simp [hsymbol], ?_⟩
    simpa using SlotState.settled_eq_resolved_iff.mpr h

end Cache

/-- Is it an error, and not one for a resolver's reason? -/
def Failure.Lasts : Failure → Prop
  | .error e => e.reason? = none
  | .crash => False

/-- An evaluation ends with a truth value, or with sides whose kinds do not go together. -/
def IsSettled (result : Except Failure Bool) : Prop :=
  (∃ b, result = .ok b) ∨ ∃ e, result = .error (.error e) ∧ e.isTypeError = true

/-- An evaluation is settled, or ends at a name that is missing or stands for no value. -/
def IsLasting (result : Except Failure Bool) : Prop :=
  IsSettled result ∨ (∃ name, result = .error (.error (.unknownSymbol name))) ∨
    ∃ name kind, result = .error (.error (.notScalar name kind))

theorem IsLasting.lasts {result : Except Failure Bool} (h : IsLasting result) {f : Failure}
    (hf : result = .error f) : f.Lasts := by
  subst hf
  rcases h with (⟨b, hb⟩ | ⟨e, he, htype⟩) | ⟨name, hname⟩ | ⟨name, kind, hname⟩
  · cases hb
  · cases he
    cases e <;> first | rfl | cases htype
  · cases hname
    rfl
  · cases hname
    rfl

namespace Inquiry

variable {α : Type} {q : Inquiry α} {c : Cache σ} {w : World σ}

/-- After an inquiry whose failure lasts, if it fails, the cache keeps all the answers it gave. -/
theorem keeps_run (h : ∀ f, (q.run Cache.get (c, w)).1 = .error f → f.Lasts) :
    ∀ x ∈ q.exchanges Cache.get (c, w), (q.run Cache.get (c, w)).2.1.Keeps x.1 x.2 := by
  intro x hx
  have hkeeps := q.run_establishes
    (P := fun (s : Cache σ × World σ) x => (∀ f, x.2 = .error f → f.Lasts) → s.1.Keeps x.1 x.2)
    (fun name s hlasts => ?_) (fun x name s hs hlasts => (hs hlasts).get name s.2) (c, w) x hx
  · refine hkeeps fun f hf => h f ?_
    obtain ⟨name, answer⟩ := x
    subst hf
    exact (run_of_failed hx).1
  · rcases hanswer : (Cache.get name s).1 with (e | _) | v
    · exact (Cache.keeps_of_error hanswer (hlasts _ hanswer)).get name s.2
    · exact (hlasts _ hanswer).elim
    · exact Cache.keeps_of_ok hanswer

/-- An inquiry that is settled has had values only. -/
theorem exists_value_of_settled {q : Inquiry Bool} (h : IsSettled (q.run Cache.get (c, w)).1)
    {x : Exchange} (hx : x ∈ q.exchanges Cache.get (c, w)) : ∃ v, x.2 = .ok v := by
  obtain ⟨name, f | v⟩ := x
  · obtain ⟨hresult, s, hs⟩ := run_of_failed hx
    rw [hresult] at h
    rcases h with ⟨b, hb⟩ | ⟨e, he, htype⟩
    · cases hb
    · cases he
      have hname := (Cache.gets s.1 s.2 name).symbol?_of_error hs
      exact nomatch (EvalError.symbol?_of_isTypeError htype).symm.trans hname
  · exact ⟨v, rfl⟩

end Inquiry

namespace Session

/-- An evaluation with a lasting result comes to that result again on the same cache, whatever is
done in between. If it is settled, that runs no resolver and changes neither the cache nor the
host's state. -/
theorem evaluate_lasting (s : Session σ) (later : List (Deed σ)) {i : Nat} {c : Cache σ}
    (hc : s.caches[i]? = some c) (tree : Chain)
    (hlasting : IsLasting (tree.evaluate Cache.get (c, s.world)).1) :
    let first := tree.evaluate Cache.get (c, s.world)
    let s' := (s.put i first.2).run later
    ∃ c', s'.caches[i]? = some c' ∧
      (tree.evaluate Cache.get (c', s'.world)).1 = first.1 ∧
      (IsSettled first.1 → (tree.evaluate Cache.get (c', s'.world)).2 = (c', s'.world)) := by
  simp only [← tree.run_inquiry] at hlasting ⊢
  obtain ⟨c', hc', hkeeps⟩ := run_keeps
    (P := fun c' => ∀ x ∈ tree.inquiry.exchanges Cache.get (c, s.world), c'.Keeps x.1 x.2)
    (fun name c w h x hx => (h x hx).get name w) (getElem?_put hc _)
    (Inquiry.keeps_run fun _ hf => hlasting.lasts hf) later
  refine ⟨c', hc', ?_, fun hsettled => ?_⟩
  · exact tree.inquiry.run_again (P := fun (s : Cache σ × World σ) x => s.1.Keeps x.1 x.2)
      (fun x s h => h.fst_get s.2) (fun x name s h => h.get name s.2) hkeeps
  · refine tree.inquiry.run_still (s := (c, s.world)) fun x hx => ?_
    obtain ⟨v, hv⟩ := Inquiry.exists_value_of_settled hsettled hx
    have hknown := hkeeps x hx
    rw [hv] at hknown ⊢
    exact hknown.get_ok _

/-- A table whose resolver for `x` gives a value once and crashes from then on, and whose resolver
for `y` fails. -/
def expiring : Table Counts :=
  (NameMap.empty.insert "x" (Script.symbol 0 [.value (.integer 1), .crash])).insert "y"
    (Script.symbol 1 [.failure "down"])

/-- Two caches made from that table. -/
def twoCaches : Session Counts :=
  ⟨expiring, [.new expiring, .new expiring], ⟨[], []⟩⟩

/-- The other cache crashes at `x`, the one that was asked fails at `y`, and the table gets another
entry for `x`. -/
def meanwhile : List (Deed Counts) :=
  [.ask (some 1) (.value "x"), .ask (some 0) (.value "y"), .insert "x" (.value (.integer 2)),
    .ask none (.value "x")]

/-- `x = 1` is found true by the first cache, and remains so. -/
theorem evaluate_lasting_meanwhile :
    let tree : Chain := .one (.comparison ⟨.symbol "x", .equal, .literal (.integer 1)⟩)
    let first := tree.evaluate Cache.get (.new expiring, twoCaches.world)
    let s' := (twoCaches.put 0 first.2).run meanwhile
    first.1 = .ok true ∧ s'.world.log = ["y", "x", "x"] ∧
      ∃ c', s'.caches[0]? = some c' ∧ c'.failed.contains "y" = true ∧
        tree.evaluate Cache.get (c', s'.world) = (.ok true, c', s'.world) := by
  intro tree first s'
  have hfirst : first.1 = .ok true := rfl
  obtain ⟨c', hc', hsame, hstill⟩ := evaluate_lasting twoCaches meanwhile (i := 0) rfl tree
    (.inl (.inl ⟨true, hfirst⟩))
  refine ⟨hfirst, rfl, c', hc', ?_, Prod.ext hsame (hstill (.inl ⟨true, hfirst⟩))⟩
  obtain rfl : _ = c' := Option.some.inj hc'
  rfl

end Session

end FilterLang
