import FilterLang.Proofs.Cache.Requests
import FilterLang.Script

/-! The record of used values is an audit. Whoever has it can replay an evaluation against these
values alone: what was resolved is in it with its value, and what failed is not in it. After an
evaluation against a fresh cache it holds nothing else, so that no name can be left out. -/

namespace FilterLang

variable {σ τ α : Type}

/-- The table that holds values and nothing else. -/
def Table.ofValues (values : NameMap Value) : Table σ := values.map .value

theorem Table.get_ofValues_some {values : NameMap Value} {name : String} {v : Value}
    (h : values.get? name = some v) (w : World σ) :
    Table.get (.ofValues values) name w = (.ok v, w) := by
  simp [get, ofValues, h, Symbol.resolve]

theorem Table.get_ofValues_none {values : NameMap Value} {name : String}
    (h : values.get? name = none) (w : World σ) :
    Table.get (.ofValues values) name w = (.error (.error (.unknownSymbol name)), w) := by
  simp [get, ofValues, h]

namespace Inquiry

variable {source : Source τ} {values : NameMap Value} {q : Inquiry α} {s : τ}

/-- A replay against values that have all the answers comes to the same end, up to a request that
failed. -/
theorem run_ofValues (h : ∀ name v, (name, .ok v) ∈ q.exchanges source s →
      values.get? name = some v) (w : World σ) :
    ((q.run (Table.get (.ofValues values)) w).1 = (q.run source s).1 ∧
      ∀ name f, (name, .error f) ∉ q.exchanges source s) ∨
    ∃ name f, (name, .error f) ∈ q.exchanges source s ∧ (q.run source s).1 = .error f ∧
      (values.get? name = none →
        (q.run (Table.get (.ofValues values)) w).1 = .error (.error (.unknownSymbol name))) := by
  induction q generalizing s w with
  | stop result => exact .inl ⟨rfl, fun _ _ => List.not_mem_nil⟩
  | ask name next ih =>
    simp only [run, exchanges] at h ⊢
    generalize source name s = step at h ⊢
    obtain ⟨answer, s'⟩ := step
    cases answer with
    | error f =>
      refine .inr ⟨name, f, List.mem_singleton.mpr rfl, rfl, fun hnone => ?_⟩
      rw [Table.get_ofValues_none hnone]
    | ok v =>
      rw [Table.get_ofValues_some (h name v List.mem_cons_self)]
      rcases ih v (s := s') (fun n u hn => h n u (List.mem_cons_of_mem _ hn)) w with
        ⟨hsame, hfailed⟩ | ⟨n, f, hn, hresult, hreplay⟩
      · refine .inl ⟨hsame, fun n f hn => ?_⟩
        rcases List.mem_cons.mp hn with hn | hn
        · cases hn
        · exact hfailed n f hn
      · exact .inr ⟨n, f, List.mem_cons_of_mem _ hn, hresult, hreplay⟩

/-- A replay without a value that was asked for stops there. -/
theorem run_ofValues_of_missing {missing : String} {value : Value}
    (hasked : (missing, .ok value) ∈ q.exchanges source s) (hmissing : values.get? missing = none)
    (h : ∀ name v, name ≠ missing → (name, .ok v) ∈ q.exchanges source s →
      values.get? name = some v) (w : World σ) :
    (q.run (Table.get (.ofValues values)) w).1 = .error (.error (.unknownSymbol missing)) := by
  induction q generalizing s w with
  | stop result => cases hasked
  | ask name next ih =>
    simp only [run, exchanges] at h hasked ⊢
    by_cases hname : name = missing
    · rw [hname, Table.get_ofValues_none hmissing]
    · generalize source name s = step at h hasked ⊢
      obtain ⟨answer, s'⟩ := step
      cases answer with
      | error f => cases List.mem_singleton.mp hasked
      | ok v =>
        rw [Table.get_ofValues_some (h name v hname List.mem_cons_self)]
        refine ih v (s := s') ?_ (fun n u hne hn => h n u hne (List.mem_cons_of_mem _ hn)) w
        rcases List.mem_cons.mp hasked with heq | hasked
        · cases heq
          exact absurd rfl hname
        · exact hasked

end Inquiry

namespace Cache

variable {table : Table σ} {c : Cache σ}

/-- What an inquiry adds to the record is what it got to know. -/
theorem Consistent.used_run (hc : c.Consistent) (q : Inquiry α) (w : World σ) (name : String)
    (v : Value) :
    (q.run Cache.get (c, w)).2.1.used.get? name = some v ↔
      c.used.get? name = some v ∨ (name, .ok v) ∈ q.exchanges Cache.get (c, w) := by
  induction q generalizing c w with
  | stop result => simp [Inquiry.run, Inquiry.exchanges]
  | ask asked next ih =>
    have hused : (Cache.get asked (c, w)).2.1.used.get? name = some v ↔
        c.used.get? name = some v ∨ name = asked ∧ (Cache.get asked (c, w)).1 = .ok v :=
      hc.used_gets (c.gets w asked)
    have hafter := hc.get w asked
    simp only [Inquiry.run, Inquiry.exchanges]
    generalize Cache.get asked (c, w) = step at hused hafter ⊢
    obtain ⟨answer, c', w'⟩ := step
    cases answer with
    | error f => simpa using hused
    | ok u =>
      refine (ih u hafter w').trans ?_
      rw [hused, List.mem_cons, Prod.mk.injEq, Except.ok.injEq, Except.ok.injEq, eq_comm (a := u),
        or_assoc]

/-- The request that failed has no value in the record. -/
theorem Consistent.error_run (hc : c.Consistent) {q : Inquiry α} {w : World σ} {name : String}
    {e : EvalError} (h : (name, .error (.error e)) ∈ q.exchanges Cache.get (c, w)) :
    e.symbol? = some name ∧ (q.run Cache.get (c, w)).2.1.used.get? name = none := by
  induction q generalizing c w with
  | stop result => cases h
  | ask asked next ih =>
    have hgets := c.gets w asked
    have hafter := hc.get w asked
    simp only [Inquiry.run, Inquiry.exchanges] at h ⊢
    generalize Cache.get asked (c, w) = step at h hgets hafter ⊢
    obtain ⟨answer, c', w'⟩ := step
    cases answer with
    | error f =>
      cases List.mem_singleton.mp h
      exact ⟨hgets.symbol?_of_error rfl, hc.used_of_error hgets rfl⟩
    | ok u =>
      rcases List.mem_cons.mp h with h | h
      · cases h
      · exact ih u hafter h

/-- A replay against the record comes to the same end, or finds no symbol where one failed. -/
theorem Consistent.replay_run (hc : c.Consistent) (q : Inquiry α) (w : World σ) (w' : World τ) :
    let done := q.run Cache.get (c, w)
    let replay := (q.run (Table.get (.ofValues done.2.1.used)) w').1
    (replay = done.1 ∧ ∀ name f, (name, .error f) ∉ q.exchanges Cache.get (c, w)) ∨
    ∃ name f, done.1 = .error f ∧ ∀ e, f = .error e →
      e.symbol? = some name ∧ replay = .error (.error (.unknownSymbol name)) := by
  intro done replay
  have hused : ∀ name v, (name, .ok v) ∈ q.exchanges Cache.get (c, w) →
      done.2.1.used.get? name = some v := fun name v h => (hc.used_run q w name v).mpr (.inr h)
  rcases Inquiry.run_ofValues hused w' with hsame | ⟨name, f, hfailed, hresult, hreplay⟩
  · exact .inl hsame
  · refine .inr ⟨name, f, hresult, ?_⟩
    rintro e rfl
    obtain ⟨hname, hnone⟩ := hc.error_run hfailed
    exact ⟨hname, hreplay hnone⟩

/-- After an inquiry put to a fresh cache, a replay stops at any name that is taken away. -/
theorem replay_run_erase (q : Inquiry α) (w : World σ) (w' : World τ) {name : String} {v : Value}
    (hasked : (name, .ok v) ∈ q.exchanges Cache.get (new table, w)) :
    (q.run (Table.get (.ofValues ((q.run Cache.get (new table, w)).2.1.used.erase name))) w').1 =
      .error (.error (.unknownSymbol name)) := by
  have hc : (new table).Consistent := (reachable_new table w.host).consistent
  refine Inquiry.run_ofValues_of_missing hasked (by simp) (fun other u hne h => ?_) w'
  rw [NameMap.get?_erase, if_neg hne]
  exact (hc.used_run q w other u).mpr (.inr h)

/-- The record after an evaluation stands for the table: a replay against it comes to the same
result or the same error of a comparison, and where a symbol failed, it finds no such symbol. After
an evaluation against a fresh cache, the record holds what was asked for and resolved, and without
any of its names the replay stops at that name. -/
theorem Reachable.replay_used (hc : c.Reachable table) (w : World σ) (tree : Chain) (w' : World τ) :
    let done := tree.evaluate Cache.get (c, w)
    let used := done.2.1.used
    let replay := fun values => (tree.evaluate (Table.get (.ofValues values)) w').1
    (∀ b, done.1 = .ok b → replay used = .ok b) ∧
    (∀ e, done.1 = .error (.error e) → e.isTypeError = true → replay used = .error (.error e)) ∧
    (∀ e name, done.1 = .error (.error e) → e.symbol? = some name →
      replay used = .error (.error (.unknownSymbol name))) ∧
    (c = .new table →
      (∀ name v, used.get? name = some v ↔ (name, .ok v) ∈ tree.exchanges Cache.get (c, w)) ∧
      ∀ name, used.contains name = true →
        replay (used.erase name) = .error (.error (.unknownSymbol name))) := by
  simp only [← Chain.run_inquiry, Chain.exchanges_eq]
  have hends := hc.consistent.replay_run tree.inquiry w w'
  refine ⟨fun b hb => ?_, fun e he htype => ?_, fun e name he hname => ?_, ?_⟩
  · rcases hends with ⟨hsame, -⟩ | ⟨name, f, hf, -⟩
    · exact hsame.trans hb
    · exact nomatch hf.symm.trans hb
  · rcases hends with ⟨hsame, -⟩ | ⟨name, f, hf, hsymbol⟩
    · exact hsame.trans he
    · obtain ⟨hname, -⟩ := hsymbol e (Except.error.inj (hf.symm.trans he))
      exact nomatch (EvalError.symbol?_of_isTypeError htype).symm.trans hname
  · rcases hends with ⟨-, hnone⟩ | ⟨failed, f, hf, hsymbol⟩
    · rcases Inquiry.error_of_run tree.inquiry_endsIn he with ⟨failed, hfailed⟩ | ⟨d, hd, htype⟩
      · exact absurd hfailed (hnone failed _)
      · obtain rfl := Failure.error.inj hd
        exact nomatch (EvalError.symbol?_of_isTypeError (htype _ rfl)).symm.trans hname
    · obtain ⟨hfailed, hreplay⟩ := hsymbol e (Except.error.inj (hf.symm.trans he))
      rw [hreplay, Option.some.inj (hfailed.symm.trans hname)]
  · rintro rfl
    have hused : ∀ name v, _ ↔ _ := fun name v =>
      (hc.consistent.used_run tree.inquiry w name v).trans (or_iff_right fun h => nomatch h)
    refine ⟨hused, fun name hname => ?_⟩
    obtain ⟨v, hv⟩ := Option.isSome_iff_exists.mp hname
    exact replay_run_erase tree.inquiry w w' ((hused name v).mp hv)

/-- A table of two names, one of them with a resolver that crashes once. -/
def stumbling : Table Counts :=
  (NameMap.empty.insert "x" (Script.symbol 0 [.crash, .value (.integer 1)])).insert "y"
    (.value (.integer 2))

/-- The first request for `x` crashes, and then `x < y` holds, also against the record. Another
cache can then evaluate it too, and without `x` its record is of no use. -/
theorem replay_used_stumbling :
    let tree : Chain := .one (.comparison ⟨.symbol "x", .less, .symbol "y"⟩)
    let first := get "x" (new stumbling, ⟨[], []⟩)
    let second := tree.evaluate get first.2
    let other := tree.evaluate get (new stumbling, second.2.2)
    first.2.1.Reachable stumbling ∧ second.1 = .ok true ∧
      (tree.evaluate (Table.get (.ofValues second.2.1.used)) second.2.2).1 = .ok true ∧
      (tree.evaluate (Table.get (.ofValues (other.2.1.used.erase "x"))) other.2.2).1 =
        .error (.error (.unknownSymbol "x")) := by
  intro tree first second other
  have hnew : (new stumbling).Reachable stumbling := reachable_new stumbling []
  have hfirst : first.2.1.Reachable stumbling := hnew.get ⟨[], []⟩ "x"
  refine ⟨hfirst, rfl, ?_, ?_⟩
  · exact (hfirst.replay_used first.2.2 tree second.2.2).1 true rfl
  · exact ((hnew.replay_used second.2.2 tree other.2.2).2.2.2 rfl).2 "x" rfl

end Cache

end FilterLang
