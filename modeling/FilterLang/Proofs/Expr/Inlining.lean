import FilterLang.Proofs.Cache.Requests
import FilterLang.Script

/-! Inlining. If the entry of a name yields the same value at every call, then the constant can
stand in the tree in place of the name, as long as no other entry notices: what the new tree leaves
out are also calls of resolvers, and these share the host's state with the others. The evaluation of
the new tree then gives the same result and makes the same requests, but for those of the names that
it has no more. A resolver that tells how often another one has been called shows that the condition
is needed. -/

namespace FilterLang

variable {α β σ τ : Type}

/-! ### Trees with constants for names -/

section

variable (known : String → Option Value)

/-- The operand with the constant for a known name. -/
def Operand.inline : Operand → Operand
  | .literal v => .literal v
  | .symbol name =>
    match known name with
    | some v => .literal v
    | none => .symbol name

/-- The comparison with the constants for known names. -/
def Comparison.inline (c : Comparison) : Comparison :=
  ⟨c.left.inline known, c.relation, c.right.inline known⟩

mutual

/-- The item with the constants for known names. -/
def Expr.inline : Expr → Expr
  | .comparison c => .comparison (c.inline known)
  | .group inner => .group inner.inline

/-- The chain with the constants for known names. -/
def Chain.inline : Chain → Chain
  | .one item => .one item.inline
  | .join before connective item => .join before.inline connective item.inline

end

namespace Inquiry

/-- The inquiry that goes on by itself where it would ask for a known name. -/
def answering : Inquiry α → Inquiry α
  | stop result => stop result
  | ask name next =>
    match known name with
    | some v => (next v).answering
    | none => ask name fun v => (next v).answering

theorem answering_bind (q : Inquiry α) (f : α → Inquiry β) :
    (q.bind f).answering known = (q.answering known).bind fun a => (f a).answering known := by
  induction q with
  | stop result => cases result <;> rfl
  | ask name next ih =>
    simp only [bind, answering]
    cases known name with
    | some v => exact ih v
    | none => simp only [bind, ih]

end Inquiry

theorem Operand.inquiry_inline (o : Operand) :
    (o.inline known).inquiry = o.inquiry.answering known := by
  cases o with
  | literal v => rfl
  | symbol name =>
    simp only [inline, inquiry, Inquiry.answering]
    cases known name <;> rfl

theorem Comparison.inquiry_inline (c : Comparison) :
    (c.inline known).inquiry = c.inquiry.answering known := by
  simp only [inquiry, inline, Operand.inquiry_inline, Inquiry.answering_bind, Inquiry.answering]

mutual

theorem Expr.inquiry_inline : (e : Expr) → (e.inline known).inquiry = e.inquiry.answering known
  | .comparison c => c.inquiry_inline known
  | .group inner => Chain.inquiry_inline inner

/-- The new tree asks for nothing that is known, and otherwise for what the old one asks for. -/
theorem Chain.inquiry_inline : (c : Chain) → (c.inline known).inquiry = c.inquiry.answering known
  | .one item => Expr.inquiry_inline item
  | .join before k item => by
    rw [Chain.inline, Chain.inquiry, Chain.inquiry, Inquiry.answering_bind,
      Chain.inquiry_inline before, Expr.inquiry_inline item]
    congr 1
    funext result
    split <;> rfl

end

end

/-! ### Requests that are left out -/

/-- Take two runs of an inquiry against a source, one of which leaves out the known names. If the
source has the known values and the states stay related, the runs come to the same result, through
the same exchanges but for those left out. -/
theorem Inquiry.run_answering {known : String → Option Value} {source : Source τ}
    {R : τ → τ → Prop}
    (hknown : ∀ name v s s', known name = some v → R s s' →
      (source name s).1 = .ok v ∧ R (source name s).2 s')
    (hother : ∀ name s s', known name = none → R s s' →
      (source name s).1 = (source name s').1 ∧ R (source name s).2 (source name s').2)
    (q : Inquiry α) {s s' : τ} (hs : R s s') :
    ((q.answering known).run source s').1 = (q.run source s).1 ∧
      (q.answering known).exchanges source s' =
        (q.exchanges source s).filter fun x => known x.1 = none := by
  induction q generalizing s s' with
  | stop result => exact ⟨rfl, rfl⟩
  | ask name next ih =>
    simp only [answering]
    cases hname : known name with
    | some v =>
      obtain ⟨hanswer, hnext⟩ := hknown name v s s' hname hs
      simp only [run, exchanges]
      generalize source name s = step at hanswer hnext ⊢
      obtain ⟨answer, t⟩ := step
      obtain rfl : answer = .ok v := hanswer
      simpa [hname] using ih v hnext
    | none =>
      obtain ⟨hanswer, hnext⟩ := hother name s s' hname hs
      simp only [run, exchanges]
      generalize source name s = step at hanswer hnext ⊢
      generalize source name s' = step' at hanswer hnext ⊢
      obtain ⟨answer, t⟩ := step
      obtain ⟨answer', t'⟩ := step'
      obtain rfl : answer = answer' := hanswer
      cases answer with
      | error f => simp [hname]
      | ok v => simpa [hname] using ih v hnext

/-! ### Constant entries -/

/-- The entry yields the value at every call. Of JSON data, the value is the constant that an operand
made from it would be. -/
def Symbol.Always (v : Value) : Symbol σ → Prop
  | .value w => w = v
  | .json data => Operand.ofJson data = .ok (.literal v)
  | .resolver run => ∀ host, (run host).1 = .value v

theorem Operand.ofJson_eq_ok_iff {data : Json} {v : Value} :
    ofJson data = .ok (.literal v) ↔ Value.ofJson? data = some v := by
  unfold ofJson
  cases Value.ofJson? data <;> simp

theorem Symbol.Always.resolve {symbol : Symbol σ} {v : Value} (h : symbol.Always v) (name : String)
    (w : World σ) : (symbol.resolve name w).1 = .ok v := by
  cases symbol with
  | value u =>
    obtain rfl : u = v := h
    rfl
  | json data => simp only [Symbol.resolve, Operand.ofJson_eq_ok_iff.mp h]
  | resolver run =>
    simp only [Symbol.resolve, h w.host]
    rfl

namespace Table

/-- The answers to requests for names, one after the other. -/
def answers (t : Table σ) : List String → World σ → List (Except Failure Value)
  | [], _ => []
  | name :: later, w => (t.get name w).1 :: t.answers later (t.get name w).2

/-- The entries of the known names yield their values at every call. -/
def AlwaysYields (t : Table σ) (known : String → Option Value) : Prop :=
  ∀ name v, known name = some v → ∃ symbol, t.get? name = some symbol ∧ symbol.Always v

/-- The entries of the known names are constants: they yield their values at every call, and that a
call is made makes no difference to the answers for other names. The second condition does not
follow from the first: a resolver that always gives one value may count its calls for another to
give. -/
structure IsConstant (t : Table σ) (known : String → Option Value) : Prop where
  always : t.AlwaysYields known
  unnoticed : ∀ name, (known name).isSome → ∀ w later, (∀ n ∈ later, known n = none) →
    t.answers later (t.get name w).2 = t.answers later w

section Constant

variable {t : Table σ} {known : String → Option Value}

theorem AlwaysYields.get (h : t.AlwaysYields known) {name : String} {v : Value}
    (hv : known name = some v) (w : World σ) : (t.get name w).1 = .ok v := by
  obtain ⟨symbol, hsymbol, halways⟩ := h name v hv
  rw [Table.get, hsymbol]
  exact halways.resolve name w

theorem get_congr_host (t : Table σ) (name : String) {w w' : World σ} (h : w.host = w'.host) :
    (t.get name w).1 = (t.get name w').1 ∧ (t.get name w).2.host = (t.get name w').2.host := by
  simp only [get]
  split
  next symbol _ => exact ⟨symbol.resolve_fst_congr name h, symbol.host_resolve_congr name h⟩
  next => exact ⟨rfl, h⟩

theorem answers_congr_host (t : Table σ) {later : List String} {w w' : World σ}
    (h : w.host = w'.host) : t.answers later w = t.answers later w' := by
  induction later generalizing w w' with
  | nil => rfl
  | cons name later ih =>
    obtain ⟨hanswer, hnext⟩ := t.get_congr_host name h
    rw [answers, answers, hanswer, ih hnext]

/-- Values, JSON scalars and resolvers without effects on the host are constants if they always
yield their values. -/
theorem AlwaysYields.isConstant (h : t.AlwaysYields known)
    (hsilent : ∀ name run, (known name).isSome → t.get? name = some (.resolver run) →
      ∀ host, (run host).2 = host) : t.IsConstant known where
  always := h
  unnoticed name hname w later _ := by
    refine t.answers_congr_host ?_
    rw [Table.get]
    split
    next symbol hsymbol =>
      cases symbol with
      | value v => rfl
      | json data =>
        simp only [Symbol.resolve]
        split <;> rfl
      | resolver run => exact hsilent name run hname hsymbol w.host
    next => rfl

end Constant

/-- Every resolver is a script, which no other name has. -/
structure OwnScripts (t : Table Counts) (script : String → Nat) : Prop where
  scripted : ∀ name run, t.get? name = some (.resolver run) →
    ∃ outcomes, Symbol.resolver run = Script.symbol (script name) outcomes
  apart : ∀ name run other, t.get? name = some (.resolver run) → other ≠ name →
    script other ≠ script name

section OwnScripts

variable {t : Table Counts} {script : String → Nat}

/-- A request leaves the counts of other scripts as they are. -/
theorem OwnScripts.calls_get (h : t.OwnScripts script) {name other : String} (hne : other ≠ name)
    (w : World Counts) :
    (t.get name w).2.host.calls (script other) = w.host.calls (script other) := by
  rw [get]
  split
  next symbol hsymbol =>
    cases symbol with
    | value v => rfl
    | json data =>
      simp only [Symbol.resolve]
      split <;> rfl
    | resolver run =>
      obtain ⟨outcomes, hrun⟩ := h.scripted name run hsymbol
      rw [hrun]
      exact Counts.calls_tick_of_ne (h.apart name run other hsymbol hne) w.host
  next => rfl

/-- What a request gets, and the count of its script afterwards, depends on that count alone. -/
theorem OwnScripts.get_congr (h : t.OwnScripts script) (name : String) {w w' : World Counts}
    (hcalls : w.host.calls (script name) = w'.host.calls (script name)) :
    (t.get name w).1 = (t.get name w').1 ∧
      (t.get name w).2.host.calls (script name) = (t.get name w').2.host.calls (script name) := by
  simp only [get]
  split
  next symbol hsymbol =>
    cases symbol with
    | value v => exact ⟨rfl, hcalls⟩
    | json data =>
      simp only [Symbol.resolve]
      split <;> exact ⟨rfl, hcalls⟩
    | resolver run =>
      obtain ⟨outcomes, hrun⟩ := h.scripted name run hsymbol
      rw [hrun]
      simp only [Script.symbol, Symbol.resolve, hcalls, Counts.calls_tick, and_self]
  next => exact ⟨rfl, hcalls⟩

theorem OwnScripts.answers_congr (h : t.OwnScripts script) {later : List String}
    {w w' : World Counts}
    (hcalls : ∀ n ∈ later, w.host.calls (script n) = w'.host.calls (script n)) :
    t.answers later w = t.answers later w' := by
  induction later generalizing w w' with
  | nil => rfl
  | cons name later ih =>
    obtain ⟨hanswer, hnext⟩ := h.get_congr name (hcalls name List.mem_cons_self)
    rw [answers, answers, hanswer]
    refine congrArg _ (ih fun n hn => ?_)
    by_cases hname : n = name
    · rw [hname]
      exact hnext
    · rw [h.calls_get hname, h.calls_get hname]
      exact hcalls n (List.mem_cons_of_mem _ hn)

/-- Where each name has a script of its own, all that it takes is the same value at every call. -/
theorem OwnScripts.isConstant (h : t.OwnScripts script) {known : String → Option Value}
    (halways : t.AlwaysYields known) : t.IsConstant known where
  always := halways
  unnoticed name hname w later hlater := by
    refine h.answers_congr fun n hn => h.calls_get ?_ w
    rintro rfl
    rw [hlater n hn] at hname
    cases hname

end OwnScripts

end Table

/-- Constants can be inlined: the result of the evaluation stays the same, and so do the requests
with their answers, but for those of the inlined names. -/
theorem Chain.evaluate_inline {t : Table σ} {known : String → Option Value}
    (h : t.IsConstant known) (c : Chain) (w : World σ) :
    ((c.inline known).evaluate t.get w).1 = (c.evaluate t.get w).1 ∧
      (c.inline known).exchanges t.get w =
        (c.exchanges t.get w).filter fun x => known x.1 = none := by
  -- The states of the two runs are told apart by no requests for the names that are left.
  let R (w w' : World σ) : Prop :=
    ∀ later, (∀ n ∈ later, known n = none) → t.answers later w = t.answers later w'
  rw [← Chain.run_inquiry, ← Chain.run_inquiry, exchanges_eq, exchanges_eq, inquiry_inline]
  refine Inquiry.run_answering (R := R) (fun name v s s' hname hs => ?_)
    (fun name s s' hname hs => ?_) c.inquiry (fun later hlater => rfl)
  · refine ⟨h.always.get hname s, fun later hlater => ?_⟩
    rw [h.unnoticed name (by rw [hname]; rfl) s later hlater, hs later hlater]
  · have hcons : ∀ later, (∀ n ∈ later, known n = none) →
        t.answers (name :: later) s = t.answers (name :: later) s' := fun later hlater =>
      hs _ fun n hn => (List.mem_cons.mp hn).elim (fun heq => heq ▸ hname) (hlater n)
    exact ⟨(List.cons.inj (hcons [] (by simp))).1, fun later hlater =>
      (List.cons.inj (hcons later hlater)).2⟩

/-- A table of a number as JSON data, a script that always gives one number, and a script that fails
from its second call on. -/
def measured : Table Counts :=
  ((NameMap.empty.insert "limit" (.json (.number (.integer 5)))).insert "step"
    (Script.symbol 0 [.value (.integer 1)])).insert "level"
    (Script.symbol 1 [.value (.integer 3), .failure "down"])

/-- What is known of that table. -/
def measuredConstants (name : String) : Option Value :=
  if name = "limit" then some (.integer 5) else if name = "step" then some (.integer 1) else none

theorem ownScripts_measured :
    measured.OwnScripts fun name => if name = "step" then 0 else if name = "level" then 1 else 2 := by
  refine ⟨fun name run hrun => ?_, fun name run other hrun hother => ?_⟩
  · rw [measured, NameMap.get?_insert, NameMap.get?_insert, NameMap.get?_insert] at hrun
    split at hrun
    next hname => exact ⟨_, by rw [hname]; exact (Option.some.inj hrun).symm⟩
    next =>
      split at hrun
      next hname => exact ⟨_, by rw [hname]; exact (Option.some.inj hrun).symm⟩
      next => split at hrun <;> cases hrun
  · rw [measured, NameMap.get?_insert, NameMap.get?_insert, NameMap.get?_insert] at hrun
    grind [NameMap.get?_empty]

theorem isConstant_measured : measured.IsConstant measuredConstants := by
  refine ownScripts_measured.isConstant fun name v hv => ?_
  rw [measuredConstants] at hv
  split at hv
  next hname =>
    cases hv
    exact ⟨.json (.number (.integer 5)), by rw [hname]; rfl, rfl⟩
  next =>
    split at hv
    next hname =>
      cases hv
      refine ⟨Script.symbol 0 [.value (.integer 1)], by rw [hname]; rfl, fun host => ?_⟩
      simp only [Script.outcome]
    next => cases hv

/-- In `step < level and level <= limit`, the names of constants can be replaced: the second request
for `level` fails as before. -/
theorem Chain.evaluate_inline_measured :
    let c : Chain := .join (.one (.comparison ⟨.symbol "step", .less, .symbol "level"⟩)) .and
      (.comparison ⟨.symbol "level", .lessOrEqual, .symbol "limit"⟩)
    let d : Chain := .join (.one (.comparison ⟨.literal (.integer 1), .less, .symbol "level"⟩)) .and
      (.comparison ⟨.symbol "level", .lessOrEqual, .literal (.integer 5)⟩)
    let w : World Counts := ⟨[], []⟩
    measured.IsConstant measuredConstants ∧ c.inline measuredConstants = d ∧
      (c.evaluate measured.get w).1 = .error (.error (.resolver "level" "down")) ∧
      (d.evaluate measured.get w).1 = .error (.error (.resolver "level" "down")) ∧
      (c.exchanges measured.get w).map Prod.fst = ["step", "level", "level"] ∧
      (d.exchanges measured.get w).map Prod.fst = ["level", "level"] := by
  intro c d w
  have hinline : c.inline measuredConstants = d := by decide
  obtain ⟨hresult, hexchanges⟩ := Chain.evaluate_inline isConstant_measured c w
  rw [hinline] at hresult hexchanges
  have hc : (c.evaluate measured.get w).1 = .error (.error (.resolver "level" "down")) := rfl
  refine ⟨isConstant_measured, hinline, hc, hresult.trans hc, rfl, ?_⟩
  rw [hexchanges]
  rfl

/-- A table of two resolvers that share a counter: `tick` adds one to it and always gives one, and
`count` gives what it has come to. -/
def counted : Table Int64 :=
  (NameMap.empty.insert "tick" (.resolver fun n => (.value (.integer 1), n + 1))).insert "count"
    (.resolver fun n => (.value (.integer n), n))

/-- That the entry of a name yields one value at every call is not enough. In `tick = 1 and
count = 1 and count < 2`, the counter has come to one when `count` is asked for; once `tick` is
replaced, it has not, so that the result is another one, and the second request for `count` is not
made any more. -/
theorem Chain.inline_counted :
    let known (name : String) : Option Value := if name = "tick" then some (.integer 1) else none
    let ticks : Expr := .comparison ⟨.symbol "tick", .equal, .literal (.integer 1)⟩
    let counts : Expr := .comparison ⟨.symbol "count", .equal, .literal (.integer 1)⟩
    let few : Expr := .comparison ⟨.symbol "count", .less, .literal (.integer 2)⟩
    let c : Chain := .join (.join (.one ticks) .and counts) .and few
    let w : World Int64 := ⟨0, []⟩
    counted.AlwaysYields known ∧
      (c.evaluate counted.get w).1 = .ok true ∧
      ((c.inline known).evaluate counted.get w).1 = .ok false ∧
      (c.exchanges counted.get w).map Prod.fst = ["tick", "count", "count"] ∧
      ((c.inline known).exchanges counted.get w).map Prod.fst = ["count"] := by
  intro known ticks counts few c w
  have halways : counted.AlwaysYields known := by
    intro name v hv
    obtain ⟨hname, hvalue⟩ := Option.ite_none_right_eq_some.mp hv
    cases hvalue
    exact ⟨.resolver fun n => (.value (.integer 1), n + 1), by rw [hname]; rfl, fun host => rfl⟩
  exact ⟨halways, rfl, rfl, rfl, rfl⟩

end FilterLang
