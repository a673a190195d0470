import FilterLang.Expr.Evaluate

/-! What an evaluation asks for. An evaluation touches its source only by requests, and each
request depends on the values that came before, so a tree denotes an inquiry: it stops, or it
asks for a name and goes on with the value. The first failure ends it. Every statement about a
tree and a source is then an induction over its inquiry. -/

namespace FilterLang

variable {α β τ τ' : Type}

/-- A result, or a request with what follows each value. -/
inductive Inquiry (α : Type) where
  | stop (result : Except EvalError α)
  | ask (name : String) (next : Value → Inquiry α)

/-- A request with its answer. -/
abbrev Exchange := String × Except Failure Value

namespace Inquiry

/-- Goes on with the result of an inquiry. -/
def bind : Inquiry α → (α → Inquiry β) → Inquiry β
  | stop (.ok a), f => f a
  | stop (.error e), _ => stop (.error e)
  | ask name next, f => ask name fun v => (next v).bind f

/-- Puts an inquiry to a source. -/
def run (source : Source τ) : Inquiry α → τ → Except Failure α × τ
  | stop result, s => (result.mapError .error, s)
  | ask name next, s =>
    match source name s with
    | (.error f, s) => (.error f, s)
    | (.ok v, s) => (next v).run source s

/-- The requests that are made with their answers, the first one first. -/
def exchanges (source : Source τ) : Inquiry α → τ → List Exchange
  | stop _, _ => []
  | ask name next, s =>
    match source name s with
    | (.error f, _) => [(name, .error f)]
    | (.ok v, s) => (name, .ok v) :: (next v).exchanges source s

/-- Every result that it may come to has a property. -/
def EndsIn (p : Except EvalError α → Prop) : Inquiry α → Prop
  | stop result => p result
  | ask _ next => ∀ v, (next v).EndsIn p

/-- Every name that it may ask for has a property. -/
def Asks (p : String → Prop) : Inquiry α → Prop
  | stop _ => True
  | ask name next => p name ∧ ∀ v, (next v).Asks p

theorem asks_true (q : Inquiry α) : q.Asks fun _ => True := by
  induction q with
  | stop result => trivial
  | ask name next ih => exact ⟨trivial, ih⟩

theorem run_bind (source : Source τ) (q : Inquiry α) (f : α → Inquiry β) (s : τ) :
    (q.bind f).run source s =
      match q.run source s with
      | (.error e, s) => (.error e, s)
      | (.ok a, s) => (f a).run source s := by
  induction q generalizing s with
  | stop result => cases result <;> rfl
  | ask name next ih =>
    simp only [bind, run]
    rcases source name s with ⟨answer, s'⟩
    cases answer with
    | error e => rfl
    | ok v => exact ih v s'

theorem EndsIn.bind {p : Except EvalError α → Prop} {p' : Except EvalError β → Prop}
    {f : α → Inquiry β} (herror : ∀ e, p (.error e) → p' (.error e))
    (hok : ∀ a, p (.ok a) → (f a).EndsIn p') {q : Inquiry α} (h : q.EndsIn p) :
    (q.bind f).EndsIn p' := by
  induction q with
  | stop result =>
    cases result with
    | error e => exact herror e h
    | ok a => exact hok a h
  | ask name next ih => exact fun v => ih v (h v)

end Inquiry

/-- A source that also writes down its answers, the last one first. -/
def Source.recording (source : Source τ) : Source (τ × List Exchange) := fun name (s, past) =>
  let (answer, s) := source name s
  (answer, s, (name, answer) :: past)

/-- The requests that an evaluation makes, with their answers, the first one first. -/
def Chain.exchanges (source : Source τ) (c : Chain) (s : τ) : List Exchange :=
  (c.evaluate source.recording (s, [])).2.2.reverse

namespace Inquiry

/-- Recording does not disturb an inquiry. -/
theorem run_recording (source : Source τ) (q : Inquiry α) (s : τ) (past : List Exchange) :
    q.run source.recording (s, past) =
      ((q.run source s).1, (q.run source s).2, (q.exchanges source s).reverse ++ past) := by
  induction q generalizing s past with
  | stop result => rfl
  | ask name next ih =>
    simp only [run, exchanges, Source.recording]
    rcases source name s with ⟨answer, s'⟩
    cases answer with
    | error f => rfl
    | ok v => simp only [ih, List.reverse_cons, List.append_assoc, List.singleton_append]

/-- Two sources that answer alike in related states, for the names that an inquiry may ask for, lead
it to the same result. -/
theorem run_related_of_asks {p : String → Prop} {R : τ → τ' → Prop} {source : Source τ}
    {source' : Source τ'}
    (h : ∀ name s s', p name → R s s' →
      (source name s).1 = (source' name s').1 ∧ R (source name s).2 (source' name s').2)
    {q : Inquiry α} (hq : q.Asks p) {s : τ} {s' : τ'} (hs : R s s') :
    (q.run source s).1 = (q.run source' s').1 ∧ R (q.run source s).2 (q.run source' s').2 := by
  induction q generalizing s s' with
  | stop result => exact ⟨rfl, hs⟩
  | ask name next ih =>
    have hstep := h name s s' hq.1 hs
    simp only [run]
    generalize source name s = step at hstep ⊢
    generalize source' name s' = step' at hstep ⊢
    obtain ⟨answer, t⟩ := step
    obtain ⟨answer', t'⟩ := step'
    obtain ⟨rfl, hnext⟩ := hstep
    cases answer with
    | error f => exact ⟨rfl, hnext⟩
    | ok v => exact ih v (hq.2 v) hnext

/-- Two sources that answer alike in related states lead an inquiry to the same result. -/
theorem run_related {R : τ → τ' → Prop} {source : Source τ} {source' : Source τ'}
    (h : ∀ name s s', R s s' →
      (source name s).1 = (source' name s').1 ∧ R (source name s).2 (source' name s').2)
    (q : Inquiry α) {s : τ} {s' : τ'} (hs : R s s') :
    (q.run source s).1 = (q.run source' s').1 ∧ R (q.run source s).2 (q.run source' s').2 :=
  run_related_of_asks (fun name s s' _ => h name s s') q.asks_true hs

/-- They also lead it through the same exchanges. -/
theorem exchanges_related {R : τ → τ' → Prop} {source : Source τ} {source' : Source τ'}
    (h : ∀ name s s', R s s' →
      (source name s).1 = (source' name s').1 ∧ R (source name s).2 (source' name s').2)
    (q : Inquiry α) {s : τ} {s' : τ'} (hs : R s s') :
    q.exchanges source s = q.exchanges source' s' := by
  induction q generalizing s s' with
  | stop result => rfl
  | ask name next ih =>
    have hstep := h name s s' hs
    simp only [exchanges]
    generalize source name s = step at hstep ⊢
    generalize source' name s' = step' at hstep ⊢
    obtain ⟨answer, t⟩ := step
    obtain ⟨answer', t'⟩ := step'
    obtain ⟨rfl, hnext⟩ := hstep
    cases answer with
    | error f => rfl
    | ok v => exact congrArg _ (ih v hnext)

/-- What every request keeps, an inquiry keeps. -/
theorem run_keeps {P : τ → Prop} {source : Source τ} (h : ∀ name s, P s → P (source name s).2)
    (q : Inquiry α) {s : τ} (hs : P s) : P (q.run source s).2 :=
  (q.run_related (R := fun s s' => s = s' ∧ P s)
    (fun name s s' hss => by obtain ⟨rfl, hs⟩ := hss; exact ⟨rfl, rfl, h name s hs⟩)
    ⟨rfl, hs⟩).2.2

/-- What a request establishes of its exchange, and later requests keep, holds of all exchanges at
the end. -/
theorem run_establishes {P : τ → Exchange → Prop} {source : Source τ}
    (hnew : ∀ name s, P (source name s).2 (name, (source name s).1))
    (hkeep : ∀ x name s, P s x → P (source name s).2 x) (q : Inquiry α) (s : τ) :
    ∀ x ∈ q.exchanges source s, P (q.run source s).2 x := by
  induction q generalizing s with
  | stop result =>
    intro x hx
    cases hx
  | ask name next ih =>
    have hfirst := hnew name s
    simp only [run, exchanges]
    generalize source name s = step at hfirst ⊢
    obtain ⟨answer, s'⟩ := step
    intro x hx
    cases answer with
    | error f =>
      obtain rfl := List.mem_singleton.mp hx
      exact hfirst
    | ok v =>
      rcases List.mem_cons.mp hx with rfl | hx
      · exact (next v).run_keeps (P := (P · _)) (hkeep _) hfirst
      · exact ih v s' x hx

/-- If the source would now answer as in the exchanges, and goes on so whatever it is asked, the
inquiry comes to the same result again. -/
theorem run_again {P : τ → Exchange → Prop} {source : Source τ}
    (hanswer : ∀ x s, P s x → (source x.1 s).1 = x.2)
    (hkeep : ∀ x name s, P s x → P (source name s).2 x) (q : Inquiry α) {s t : τ}
    (h : ∀ x ∈ q.exchanges source s, P t x) : (q.run source t).1 = (q.run source s).1 := by
  induction q generalizing s t with
  | stop result => rfl
  | ask name next ih =>
    simp only [run, exchanges] at h ⊢
    generalize source name s = step at h ⊢
    obtain ⟨answer, s'⟩ := step
    have hafter := fun x => hkeep x name t
    have hsame : (source name t).1 = answer := by
      cases answer with
      | error f => exact hanswer _ t (h (name, .error f) List.mem_cons_self)
      | ok v => exact hanswer _ t (h (name, .ok v) List.mem_cons_self)
    generalize source name t = again at hsame hafter ⊢
    obtain ⟨answer', t'⟩ := again
    obtain rfl : answer' = answer := hsame
    cases answer' with
    | error f => rfl
    | ok v => exact ih v fun x hx => hafter x (h x (List.mem_cons_of_mem _ hx))

/-- If the source gives the answers of the exchanges without changing, the inquiry leaves it as it
is. -/
theorem run_still {source : Source τ} (q : Inquiry α) {s t : τ}
    (h : ∀ x ∈ q.exchanges source s, source x.1 t = (x.2, t)) : (q.run source t).2 = t := by
  induction q generalizing s with
  | stop result => rfl
  | ask name next ih =>
    simp only [run, exchanges] at h ⊢
    generalize source name s = step at h
    obtain ⟨answer, s'⟩ := step
    cases answer with
    | error f => rw [h (name, .error f) List.mem_cons_self]
    | ok v =>
      rw [h (name, .ok v) List.mem_cons_self]
      exact ih v fun x hx => h x (List.mem_cons_of_mem _ hx)

/-- What every request keeps holds where an exchange was made. -/
theorem exists_of_mem_exchanges {P : τ → Prop} {source : Source τ}
    (hkeep : ∀ name s, P s → P (source name s).2) {q : Inquiry α} {s : τ} (hs : P s)
    {x : Exchange} (hx : x ∈ q.exchanges source s) : ∃ t, P t ∧ (source x.1 t).1 = x.2 := by
  induction q generalizing s with
  | stop result => cases hx
  | ask name next ih =>
    have hnext := hkeep name s hs
    rw [exchanges] at hx
    rcases hanswer : source name s with ⟨answer, s'⟩
    rw [hanswer] at hx hnext
    cases answer with
    | error f =>
      obtain rfl := List.mem_singleton.mp hx
      exact ⟨s, hs, congrArg Prod.fst hanswer⟩
    | ok v =>
      rcases List.mem_cons.mp hx with rfl | hx
      · exact ⟨s, hs, congrArg Prod.fst hanswer⟩
      · exact ih v hnext hx

/-- A request that fails ends the inquiry. -/
theorem run_of_failed {source : Source τ} {q : Inquiry α} {s : τ} {name : String} {f : Failure}
    (h : (name, .error f) ∈ q.exchanges source s) :
    (q.run source s).1 = .error f ∧ ∃ t, (source name t).1 = .error f := by
  refine ⟨?_, (exists_of_mem_exchanges (P := fun _ => True) (fun _ _ _ => trivial) trivial h).imp
    fun t ht => ht.2⟩
  induction q generalizing s with
  | stop result => cases h
  | ask asked next ih =>
    rw [run]
    rw [exchanges] at h
    rcases hanswer : source asked s with ⟨answer, s'⟩
    rw [hanswer] at h
    cases answer with
    | error g =>
      cases List.mem_singleton.mp h
      rfl
    | ok v =>
      rcases List.mem_cons.mp h with h | h
      · cases h
      · exact ih v h

/-- An inquiry fails by its last request or by a result of its own. -/
theorem error_of_run {p : Except EvalError α → Prop} {source : Source τ} {q : Inquiry α} {s : τ}
    {f : Failure} (hq : q.EndsIn p) (h : (q.run source s).1 = .error f) :
    (∃ name, (name, .error f) ∈ q.exchanges source s) ∨ ∃ e, f = .error e ∧ p (.error e) := by
  induction q generalizing s with
  | stop result =>
    cases result with
    | error e => exact .inr ⟨e, (Except.error.inj h).symm, hq⟩
    | ok a => cases h
  | ask name next ih =>
    rw [run] at h
    rw [exchanges]
    rcases hanswer : source name s with ⟨answer, s'⟩
    rw [hanswer] at h
    cases answer with
    | error g =>
      obtain rfl : g = f := Except.error.inj h
      exact .inl ⟨name, List.mem_singleton.mpr rfl⟩
    | ok v =>
      rcases ih v (hq v) h with ⟨n, hn⟩ | hown
      · exact .inl ⟨n, List.mem_cons_of_mem _ hn⟩
      · exact .inr hown

end Inquiry

/-- The inquiry of an operand. -/
def Operand.inquiry : Operand → Inquiry Value
  | .literal v => .stop (.ok v)
  | .symbol name => .ask name fun v => .stop (.ok v)

/-- The inquiry of a comparison. -/
def Comparison.inquiry (c : Comparison) : Inquiry Bool :=
  c.left.inquiry.bind fun left => c.right.inquiry.bind fun right =>
    .stop (c.relation.compare left right)

mutual

/-- The inquiry of an item. -/
def Expr.inquiry : Expr → Inquiry Bool
  | .comparison c => c.inquiry
  | .group inner => inner.inquiry

/-- The inquiry of a chain. -/
def Chain.inquiry : Chain → Inquiry Bool
  | .one item => item.inquiry
  | .join before connective item =>
    before.inquiry.bind fun result =>
      if result = connective.decisive then .stop (.ok result) else item.inquiry

end

section

variable (source : Source τ)

theorem Operand.run_inquiry (o : Operand) (s : τ) :
    o.inquiry.run source s = o.resolve source s := by
  cases o with
  | literal v => rfl
  | symbol name =>
    simp only [inquiry, Inquiry.run, resolve]
    rcases source name s with ⟨answer, s'⟩
    cases answer <;> rfl

theorem Comparison.run_inquiry (c : Comparison) (s : τ) :
    c.inquiry.run source s = c.evaluate source s := by
  rw [inquiry, Inquiry.run_bind, Operand.run_inquiry, evaluate]
  rcases c.left.resolve source s with ⟨left, t⟩
  cases left with
  | error f => rfl
  | ok left =>
    simp only [Inquiry.run_bind, Operand.run_inquiry]
    rcases c.right.resolve source t with ⟨right, u⟩
    cases right <;> rfl

mutual

theorem Expr.run_inquiry : (e : Expr) → (s : τ) → e.inquiry.run source s = e.evaluate source s
  | .comparison c, s => c.run_inquiry source s
  | .group inner, s => Chain.run_inquiry inner s

/-- Evaluating a chain is putting its inquiry to the source. -/
theorem Chain.run_inquiry : (c : Chain) → (s : τ) → c.inquiry.run source s = c.evaluate source s
  | .one item, s => Expr.run_inquiry item s
  | .join before k item, s => by
    rw [Chain.inquiry, Inquiry.run_bind, Chain.run_inquiry before s, Chain.evaluate]
    rcases before.evaluate source s with ⟨result, t⟩
    cases result with
    | error f => rfl
    | ok a =>
      simp only
      split
      · rfl
      · exact Expr.run_inquiry item t

end

theorem Chain.exchanges_eq (c : Chain) (s : τ) :
    c.exchanges source s = c.inquiry.exchanges source s := by
  rw [Chain.exchanges, ← Chain.run_inquiry, Inquiry.run_recording, List.append_nil,
    List.reverse_reverse]

end

/-- A comparison fails by itself only for the kinds of its sides. -/
theorem Relation.isTypeError_of_compare {r : Relation} {left right : Value} {e : EvalError}
    (h : r.compare left right = .error e) : e.isTypeError = true := by
  unfold Relation.compare at h
  split at h
  · split at h <;> cases h
    rfl
  · split at h <;> cases h <;> rfl

/-- Such an error is about no symbol. -/
theorem EvalError.symbol?_of_isTypeError {e : EvalError} (h : e.isTypeError = true) :
    e.symbol? = none := by
  cases e <;> first | rfl | cases h

/-- A result that is no error but of the kinds of two sides. -/
def IsComparisonResult (result : Except EvalError Bool) : Prop :=
  ∀ e, result = .error e → e.isTypeError = true

theorem Operand.inquiry_endsIn (o : Operand) : o.inquiry.EndsIn fun r => ∃ v, r = .ok v := by
  cases o with
  | literal v => exact ⟨v, rfl⟩
  | symbol name => exact fun v => ⟨v, rfl⟩

theorem Comparison.inquiry_endsIn (c : Comparison) : c.inquiry.EndsIn IsComparisonResult := by
  refine c.left.inquiry_endsIn.bind (fun e h => nomatch h.choose_spec) fun left _ => ?_
  refine c.right.inquiry_endsIn.bind (fun e h => nomatch h.choose_spec) fun right _ => ?_
  exact fun e he => Relation.isTypeError_of_compare he

mutual

theorem Expr.inquiry_endsIn : (e : Expr) → e.inquiry.EndsIn IsComparisonResult
  | .comparison c => c.inquiry_endsIn
  | .group inner => Chain.inquiry_endsIn inner

theorem Chain.inquiry_endsIn : (c : Chain) → c.inquiry.EndsIn IsComparisonResult
  | .one item => Expr.inquiry_endsIn item
  | .join before k item => by
    refine (Chain.inquiry_endsIn before).bind (fun e h => h) fun a _ => ?_
    split
    · intro e he
      cases he
    · exact Expr.inquiry_endsIn item

end

end FilterLang
