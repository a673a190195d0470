import FilterLang.Proofs.Expr.Inquiry
import FilterLang.Script
import FilterLang.Cache

/-! Items that are passed over do not matter. An evaluation comes to some of the items of a tree: to
the first one of every chain it comes to, and to another one if the chain before it has a result and
this does not decide the connective. Any other item may be replaced by whatever one likes. The
evaluation comes to the same items, makes the same requests and ends in the same way. -/

namespace FilterLang

variable {σ τ : Type}

mutual

/-- The place of an item: it is the item at hand, or it lies within the group that this is. -/
inductive Expr.Place where
  | here
  | inside (place : Chain.Place)

/-- The place of an item in a chain: at or within its only item, in what comes before its last item,
or at or within that. -/
inductive Chain.Place where
  | only (place : Expr.Place)
  | before (place : Chain.Place)
  | last (place : Expr.Place)

end

deriving instance DecidableEq for Expr.Place, Chain.Place

mutual

/-- Puts another item in the place of one. -/
def Expr.replace : Expr → Expr.Place → Expr → Expr
  | _, .here, new => new
  | .group inner, .inside p, new => .group (inner.replace p new)
  | .comparison c, .inside _, _ => .comparison c

/-- Puts another item in the place of one of a chain. -/
def Chain.replace : Chain → Chain.Place → Expr → Chain
  | .one e, .only p, new => .one (e.replace p new)
  | .join before k e, .before p, new => .join (before.replace p new) k e
  | .join before k e, .last p, new => .join before k (e.replace p new)
  | c, _, _ => c

end

mutual

/-- The places of the items that the evaluation of an item comes to, in their order. -/
def Expr.visits (source : Source τ) : Expr → τ → List Expr.Place
  | .comparison _, _ => [.here]
  | .group inner, s => .here :: (inner.visits source s).map .inside

/-- The places of the items that the evaluation of a chain comes to, in their order. -/
def Chain.visits (source : Source τ) : Chain → τ → List Chain.Place
  | .one e, s => (e.visits source s).map .only
  | .join before k e, s =>
    (before.visits source s).map .before ++
      match before.evaluate source s with
      | (.error _, _) => []
      | (.ok result, s) => if result = k.decisive then [] else (e.visits source s).map .last

end

section

variable {source : Source τ} {s : τ}

/-- An evaluation comes to the last item, or to one within it, if the chain before it has a result
that does not decide the connective. -/
theorem Chain.last_mem_visits_iff {before : Chain} {k : Connective} {e : Expr} {p : Expr.Place} :
    .last p ∈ (Chain.join before k e).visits source s ↔
      ∃ result, (before.evaluate source s).1 = .ok result ∧ result ≠ k.decisive ∧
        p ∈ e.visits source (before.evaluate source s).2 := by
  rw [Chain.visits]
  rcases before.evaluate source s with ⟨_ | result, t⟩
  · simp
  · by_cases h : result = k.decisive <;> simp [h]

theorem Chain.before_mem_visits_iff {before : Chain} {k : Connective} {e : Expr}
    {p : Chain.Place} :
    .before p ∈ (Chain.join before k e).visits source s ↔ p ∈ before.visits source s := by
  rw [Chain.visits]
  rcases before.evaluate source s with ⟨_ | result, t⟩
  · simp
  · by_cases h : result = k.decisive <;> simp [h]

variable (new : Expr)

mutual

theorem Expr.evaluate_replace (s : τ) : (e : Expr) → (p : Expr.Place) → p ∉ e.visits source s →
    (e.replace p new).evaluate source s = e.evaluate source s
  | .comparison c, .here, h => (h (List.mem_singleton.mpr rfl)).elim
  | .comparison c, .inside p, _ => rfl
  | .group inner, .here, h => (h List.mem_cons_self).elim
  | .group inner, .inside p, h => by
    rw [Expr.replace, Expr.evaluate, Expr.evaluate]
    refine Chain.evaluate_replace s inner p fun hp => h ?_
    simpa [Expr.visits] using hp

/-- The result of an evaluation, and the state it leaves, do not depend on an item that it does not
come to. -/
theorem Chain.evaluate_replace (s : τ) : (c : Chain) → (p : Chain.Place) →
    p ∉ c.visits source s → (c.replace p new).evaluate source s = c.evaluate source s
  | .one e, .only p, h => by
    rw [Chain.replace, Chain.evaluate, Chain.evaluate]
    refine Expr.evaluate_replace s e p fun hp => h ?_
    simpa [Chain.visits] using hp
  | .one e, .before p, _ => rfl
  | .one e, .last p, _ => rfl
  | .join before k e, .only p, _ => rfl
  | .join before k e, .before p, h => by
    rw [Chain.replace, Chain.evaluate, Chain.evaluate,
      Chain.evaluate_replace s before p fun hp => h (Chain.before_mem_visits_iff.mpr hp)]
  | .join before k e, .last p, h => by
    rw [Chain.last_mem_visits_iff] at h
    rw [Chain.replace, Chain.evaluate, Chain.evaluate]
    generalize before.evaluate source s = reached at h ⊢
    rcases reached with ⟨_ | result, t⟩
    · rfl
    · simp only
      split
      · rfl
      next hresult =>
        exact Expr.evaluate_replace t e p fun hp => h ⟨result, rfl, hresult, hp⟩

end

mutual

theorem Expr.visits_replace (s : τ) : (e : Expr) → (p : Expr.Place) → p ∉ e.visits source s →
    (e.replace p new).visits source s = e.visits source s
  | .comparison c, .here, h => (h (List.mem_singleton.mpr rfl)).elim
  | .comparison c, .inside p, _ => rfl
  | .group inner, .here, h => (h List.mem_cons_self).elim
  | .group inner, .inside p, h => by
    rw [Expr.replace, Expr.visits, Expr.visits, Chain.visits_replace s inner p fun hp => h ?_]
    simpa [Expr.visits] using hp

theorem Chain.visits_replace (s : τ) : (c : Chain) → (p : Chain.Place) →
    p ∉ c.visits source s → (c.replace p new).visits source s = c.visits source s
  | .one e, .only p, h => by
    rw [Chain.replace, Chain.visits, Chain.visits, Expr.visits_replace s e p fun hp => h ?_]
    simpa [Chain.visits] using hp
  | .one e, .before p, _ => rfl
  | .one e, .last p, _ => rfl
  | .join before k e, .only p, _ => rfl
  | .join before k e, .before p, h => by
    have hp : p ∉ before.visits source s := fun hp => h (Chain.before_mem_visits_iff.mpr hp)
    rw [Chain.replace, Chain.visits, Chain.visits, Chain.visits_replace s before p hp,
      Chain.evaluate_replace new s before p hp]
  | .join before k e, .last p, h => by
    rw [Chain.last_mem_visits_iff] at h
    rw [Chain.replace, Chain.visits, Chain.visits]
    generalize before.evaluate source s = reached at h ⊢
    rcases reached with ⟨_ | result, t⟩
    · rfl
    · simp only
      split
      · rfl
      next hresult =>
        rw [Expr.visits_replace t e p fun hp => h ⟨result, rfl, hresult, hp⟩]

end

end

section

variable (source : Source τ)

mutual

theorem Expr.visits_recording (s : τ) (past : List Exchange) :
    (e : Expr) → e.visits source.recording (s, past) = e.visits source s
  | .comparison c => rfl
  | .group inner => by rw [Expr.visits, Expr.visits, Chain.visits_recording s past inner]

/-- Recording the requests does not change where an evaluation comes to. -/
theorem Chain.visits_recording (s : τ) (past : List Exchange) :
    (c : Chain) → c.visits source.recording (s, past) = c.visits source s
  | .one e => by rw [Chain.visits, Chain.visits, Expr.visits_recording s past e]
  | .join before k e => by
    rw [Chain.visits, Chain.visits, Chain.visits_recording s past before, ← Chain.run_inquiry,
      ← Chain.run_inquiry, Inquiry.run_recording]
    rcases before.inquiry.run source s with ⟨_ | result, t⟩
    · rfl
    · simp only [Expr.visits_recording]

end

mutual

theorem Expr.exists_evaluate_replace (s : τ) : (e : Expr) → (p : Expr.Place) →
    p ∈ e.visits source s → ∃ t, ∀ new f u, new.evaluate source t = (.error f, u) →
      (e.replace p new).evaluate source s = (.error f, u)
  | _, .here, _ => ⟨s, fun new f u hnew => by rwa [Expr.replace]⟩
  | .comparison c, .inside p, h => by simp [Expr.visits] at h
  | .group inner, .inside p, h => by
    obtain ⟨t, ht⟩ := Chain.exists_evaluate_replace s inner p (by simpa [Expr.visits] using h)
    exact ⟨t, fun new f u hnew => by rw [Expr.replace, Expr.evaluate, ht new f u hnew]⟩

/-- The items that an evaluation does come to matter: if one of them fails, then so does the
evaluation, and at once. -/
theorem Chain.exists_evaluate_replace (s : τ) : (c : Chain) → (p : Chain.Place) →
    p ∈ c.visits source s → ∃ t, ∀ new f u, new.evaluate source t = (.error f, u) →
      (c.replace p new).evaluate source s = (.error f, u)
  | .one e, .only p, h => by
    obtain ⟨t, ht⟩ := Expr.exists_evaluate_replace s e p (by simpa [Chain.visits] using h)
    exact ⟨t, fun new f u hnew => by rw [Chain.replace, Chain.evaluate, ht new f u hnew]⟩
  | .one e, .before p, h => by simp [Chain.visits] at h
  | .one e, .last p, h => by simp [Chain.visits] at h
  | .join before k e, .only p, h => by
    rw [Chain.visits] at h
    grind
  | .join before k e, .before p, h => by
    obtain ⟨t, ht⟩ := Chain.exists_evaluate_replace s before p (Chain.before_mem_visits_iff.mp h)
    exact ⟨t, fun new f u hnew => by rw [Chain.replace, Chain.evaluate, ht new f u hnew]⟩
  | .join before k e, .last p, h => by
    obtain ⟨result, hbefore, hresult, hp⟩ := Chain.last_mem_visits_iff.mp h
    obtain ⟨t, ht⟩ := Expr.exists_evaluate_replace _ e p hp
    refine ⟨t, fun new f u hnew => ?_⟩
    rw [Chain.replace, Chain.evaluate, ← ht new f u hnew]
    generalize before.evaluate source s = reached at hbefore
    obtain ⟨_, _⟩ := reached
    cases hbefore
    exact if_neg hresult

end

/-- An item that the evaluation of a tree does not come to does not matter: with any other one in
its place, the evaluation has the same result and leaves the same state, with the same requests and
answers on the way, and comes to the same items. An item that it does come to matters: with one in
its place that fails, the evaluation fails in the same way. -/
theorem Chain.replace_unvisited (s : τ) (c : Chain) (p : Chain.Place) :
    (p ∉ c.visits source s → ∀ new : Expr,
      (c.replace p new).evaluate source s = c.evaluate source s ∧
      (c.replace p new).exchanges source s = c.exchanges source s ∧
      (c.replace p new).visits source s = c.visits source s) ∧
    (p ∈ c.visits source s → ∀ (new : Expr) (f : Failure),
      (∀ t, (new.evaluate source t).1 = .error f) →
      ((c.replace p new).evaluate source s).1 = .error f) := by
  refine ⟨fun h new => ⟨Chain.evaluate_replace new s c p h, ?_, Chain.visits_replace new s c p h⟩,
    fun h new f hnew => ?_⟩
  · rw [Chain.exchanges, Chain.exchanges, Chain.evaluate_replace new (s, []) c p]
    rwa [Chain.visits_recording]
  · obtain ⟨t, ht⟩ := Chain.exists_evaluate_replace source s c p h
    rw [ht new f (new.evaluate source t).2 (Prod.ext (hnew t) rfl)]

end

/-- A table of two scripts, the second of which fails at its second call. -/
def paired : Table Counts :=
  (NameMap.empty.insert "x" (Script.symbol 0 [.value (.integer 1)])).insert "y"
    (Script.symbol 1 [.value (.integer 2), .failure "down"])

/-- In `x = 1 or y = 2 and y = 3`, the item `y = 2` is passed over and the one after it is not. With
a group that would fail in the place of `y = 2`, a cache is asked for the same and records the same;
with a comparison that fails in the place of `y = 3`, the evaluation fails. -/
theorem Chain.replace_unvisited_paired :
    let source : Source (Cache Counts × World Counts) := Cache.get
    let s : Cache Counts × World Counts := (.new paired, ⟨[], []⟩)
    let chain (second third : Expr) : Chain :=
      .join (.join (.one (.comparison ⟨.symbol "x", .equal, .literal (.integer 1)⟩)) .or second)
        .and third
    let y (n : Int64) : Expr := .comparison ⟨.symbol "y", .equal, .literal (.integer n)⟩
    let fails : Expr := .comparison ⟨.literal (.boolean true), .less, .literal (.integer 1)⟩
    let c := chain (y 2) (y 3)
    let d := chain (.group (.one fails)) (y 3)
    c.visits source s = [.before (.before (.only .here)), .last .here] ∧
      (d.evaluate source s).1 = .ok false ∧
      (d.evaluate source s).2.1.used.entries = [("x", .integer 1), ("y", .integer 2)] ∧
      (d.evaluate source s).2.2.log = ["y", "x"] ∧
      (d.exchanges source s).map Prod.fst = ["x", "y"] ∧
      ((chain (y 2) fails).evaluate source s).1 =
        .error (.error (.unordered .less (.boolean true))) := by
  intro source s chain y fails c d
  have hvisits : c.visits source s = [.before (.before (.only .here)), .last .here] := rfl
  obtain ⟨hskipped, -⟩ := Chain.replace_unvisited source s c (.before (.last .here))
  obtain ⟨-, hreached⟩ := Chain.replace_unvisited source s c (.last .here)
  obtain ⟨hsame, hexchanges, -⟩ := hskipped (by simp [hvisits]) (.group (.one fails))
  have hfails := hreached (by simp [hvisits]) fails _ fun t => rfl
  have hd : c.replace (.before (.last .here)) (.group (.one fails)) = d := rfl
  rw [hd] at hsame hexchanges
  rw [hsame, hexchanges]
  exact ⟨hvisits, rfl, rfl, rfl, rfl, hfails⟩

end FilterLang
