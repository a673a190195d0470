import FilterLang.Expr.Names
import FilterLang.Proofs.Cache.Requests
import FilterLang.Proofs.Expr.Spelling
import FilterLang.Script

/-! The symbols of a tree bound what an evaluation asks for. The search for symbols finds exactly the
names on the sides of the comparisons, although it takes the groups in an order of its own. An
evaluation asks for some of these names, in the order in which they stand; so nothing else in a
table matters to it, and if all of them have a value at every call, then it fails for the kinds of
the two sides of a comparison alone. -/

namespace FilterLang

variable {α β σ τ : Type}

/-- The name of an operand that is a symbol. -/
def Operand.names : Operand → List String
  | .literal _ => []
  | .symbol name => [name]

/-- The names in a comparison, the left side first. -/
def Comparison.names (c : Comparison) : List String := c.left.names ++ c.right.names

/-- The names in an item from left to right, as often as they stand there. -/
def Expr.names (e : Expr) : List String := e.comparisons.flatMap Comparison.names

/-- The names in a chain from left to right, as often as they stand there. -/
def Chain.names (c : Chain) : List String := c.comparisons.flatMap Comparison.names

theorem Chain.names_join (before : Chain) (k : Connective) (e : Expr) :
    (Chain.join before k e).names = before.names ++ e.names := by
  simp [names, Expr.names, comparisons]

/-! ### The search -/

namespace Search

variable {name : String}

/-- Is the name found, or in a chain that is put off? -/
def Covers (s : Search) (name : String) : Prop :=
  (s.found.get? name).isSome ∨ ∃ c ∈ s.pending, name ∈ c.names

theorem covers_operand (s : Search) (o : Operand) :
    (s.operand o).Covers name ↔ s.Covers name ∨ name ∈ o.names := by
  cases o with
  | literal v => simp [operand, Operand.names]
  | symbol n =>
    simp only [Covers, operand, NameMap.get?_insert, Operand.names, List.mem_singleton]
    split
    next h => simp [h]
    next h => simp [h]

theorem covers_item (s : Search) (e : Expr) :
    (s.item e).Covers name ↔ s.Covers name ∨ name ∈ e.names := by
  cases e with
  | comparison c =>
    rw [item, covers_operand, covers_operand, or_assoc, ← List.mem_append]
    simp [Expr.names, Expr.comparisons, Comparison.names]
  | group inner =>
    have hinner : name ∈ (Expr.group inner).names ↔ name ∈ inner.names := Iff.rfl
    simp only [Covers, item, List.mem_cons, exists_eq_or_imp, hinner]
    rw [or_assoc]
    exact or_congr_right or_comm

theorem covers_chain (s : Search) (c : Chain) :
    (s.chain c).Covers name ↔ s.Covers name ∨ name ∈ c.names := by
  induction c using chain.induct with
  | case1 e => exact s.covers_item e
  | case2 before k e ih =>
    rw [chain, covers_item, ih, or_assoc, ← List.mem_append, ← Chain.names_join]

/-- The names found at the end are those that were covered all along. -/
theorem isSome_finish_iff (s : Search) : (s.finish.get? name).isSome ↔ s.Covers name := by
  induction s using finish.induct with
  | case1 found => simp [finish, Covers]
  | case2 c rest found ih =>
    rw [finish, ih, covers_chain]
    simp only [Covers, List.mem_cons, exists_eq_or_imp]
    rw [or_assoc]
    exact or_congr_right or_comm

end Search

/-- The symbols of a chain are the names on the sides of its comparisons. -/
theorem Chain.mem_symbols {c : Chain} {name : String} : name ∈ c.symbols ↔ name ∈ c.names := by
  rw [symbols, NameMap.mem_names_iff, Search.isSome_finish_iff]
  simp [Search.Covers]

/-! ### What an evaluation may ask for -/

namespace Inquiry

/-- Whatever the answers are, the names asked for are some of the given ones, in their order. -/
inductive Within : Inquiry α → List String → Prop
  | stop {result : Except EvalError α} {names : List String} : Within (.stop result) names
  | ask {name : String} {next : Value → Inquiry α} {names : List String}
      (h : ∀ v, Within (next v) names) : Within (.ask name next) (name :: names)
  | skip {q : Inquiry α} {name : String} {names : List String} (h : Within q names) :
    Within q (name :: names)

variable {q : Inquiry α} {f : α → Inquiry β} {names others : List String}

theorem Within.append_left (h : q.Within others) (names : List String) :
    q.Within (names ++ others) := by
  induction names with
  | nil => exact h
  | cons name names ih => exact ih.skip

theorem Within.bind (h : q.Within names) (hf : ∀ a, (f a).Within others) :
    (q.bind f).Within (names ++ others) := by
  induction h with
  | @stop result names =>
    cases result with
    | error e => exact .stop
    | ok a => exact (hf a).append_left names
  | ask _ ih => exact .ask ih
  | skip _ ih => exact .skip ih

theorem Asks.mono {p p' : String → Prop} (h : q.Asks p) (hp : ∀ name, p name → p' name) :
    q.Asks p' := by
  induction q with
  | stop result => trivial
  | ask name next ih => exact ⟨hp name h.1, fun v => ih v (h.2 v)⟩

theorem Within.asks (h : q.Within names) : q.Asks (· ∈ names) := by
  induction h with
  | stop => trivial
  | ask _ ih => exact ⟨List.mem_cons_self, fun v => (ih v).mono fun _ => List.mem_cons_of_mem _⟩
  | skip _ ih => exact ih.mono fun _ => List.mem_cons_of_mem _

theorem Within.sublist (h : q.Within names) (source : Source τ) (s : τ) :
    ((q.exchanges source s).map Prod.fst).Sublist names := by
  induction h generalizing s with
  | stop => exact List.nil_sublist _
  | @ask name next names _ ih =>
    rw [exchanges]
    rcases source name s with ⟨answer, s'⟩
    cases answer with
    | error e => exact (List.nil_sublist names).cons_cons name
    | ok v => exact (ih v s').cons_cons name
  | skip _ ih => exact (ih s).cons _

end Inquiry

theorem Operand.inquiry_within (o : Operand) : o.inquiry.Within o.names := by
  cases o with
  | literal v => exact .stop
  | symbol name => exact .ask fun v => .stop

theorem Comparison.inquiry_within (c : Comparison) : c.inquiry.Within c.names := by
  apply c.left.inquiry_within.bind
  intro left
  have hright : (c.right.inquiry.bind fun right =>
      .stop (c.relation.compare left right)).Within (c.right.names ++ []) :=
    c.right.inquiry_within.bind fun right => .stop
  rwa [List.append_nil] at hright

mutual

theorem Expr.inquiry_within : (e : Expr) → e.inquiry.Within e.names
  | .comparison c => by
    have hnames : (Expr.comparison c).names = c.names := by simp [Expr.names, Expr.comparisons]
    rw [hnames]
    exact c.inquiry_within
  | .group inner => Chain.inquiry_within inner

/-- An evaluation asks for some of the names of the chain, in their order. -/
theorem Chain.inquiry_within : (c : Chain) → c.inquiry.Within c.names
  | .one item => Expr.inquiry_within item
  | .join before k item => by
    rw [Chain.names_join]
    apply (Chain.inquiry_within before).bind
    intro result
    split
    · exact .stop
    · exact Expr.inquiry_within item

end

/-! ### Tables without the other names -/

/-- The entries with one of the given names. -/
def NameMap.only (m : NameMap α) (names : List String) : NameMap α :=
  ⟨m.entries.filter fun e => e.1 ∈ names, m.ascending.sublist (List.filter_sublist.map _)⟩

theorem NameMap.get?_only {m : NameMap α} {names : List String} {name : String} (h : name ∈ names) :
    (m.only names).get? name = m.get? name := by
  obtain ⟨entries, hentries⟩ := m
  simp only [only, get?]
  clear hentries
  induction entries with
  | nil => rfl
  | cons e rest ih =>
    by_cases he : e.1 ∈ names
    · simp [List.filter_cons_of_pos, he, find?, ih]
    · have hne : name ≠ e.1 := fun heq => he (heq ▸ h)
      simp [List.filter_cons_of_neg, he, find?, hne, ih]

theorem Chain.evaluate_only (c : Chain) (t : Table σ) (w : World σ) :
    c.evaluate (Table.get (t.only c.symbols)) w = c.evaluate t.get w := by
  have hsame : ∀ name w w', name ∈ c.names → w = w' →
      (Table.get (t.only c.symbols) name w).1 = (t.get name w').1 ∧
        (Table.get (t.only c.symbols) name w).2 = (t.get name w').2 := by
    rintro name w _ hname rfl
    simp [Table.get, NameMap.get?_only (mem_symbols.mpr hname)]
  rw [← c.run_inquiry, ← c.run_inquiry]
  obtain ⟨hresult, hworld⟩ := Inquiry.run_related_of_asks hsame c.inquiry_within.asks rfl
  exact Prod.ext hresult hworld

namespace Cache

/-- The cache with another table. -/
def withTable (c : Cache σ) (t : Table σ) : Cache σ := { c with table := t }

theorem record_withTable (c : Cache σ) (t : Table σ) (name : String)
    (outcome : Except Failure Value) :
    (c.withTable t).record name outcome = (c.record name outcome).withTable t := by
  rcases outcome with (e | _) | v <;> rfl

/-- A request depends on the entry of its name alone. -/
theorem get_withTable {c : Cache σ} {t : Table σ} {name : String}
    (h : t.get? name = c.table.get? name) (w : World σ) :
    get name (c.withTable t, w) =
      ((get name (c, w)).1, (get name (c, w)).2.1.withTable t, (get name (c, w)).2.2) := by
  have hslot : (c.withTable t).slot name = c.slot name := rfl
  have hentry : (c.withTable t).table.get? name = c.table.get? name := h
  have hbegin : ∀ k, (c.withTable t).begin name k = (c.begin name k).withTable t := fun k => rfl
  simp only [get, hslot, hentry, hbegin, record_withTable]
  split
  · rfl
  · split <;> rfl

end Cache

theorem Chain.evaluate_only_cache (c : Chain) (cache : Cache σ) (w : World σ) :
    c.evaluate Cache.get (cache.withTable (cache.table.only c.symbols), w) =
      ((c.evaluate Cache.get (cache, w)).1,
        (c.evaluate Cache.get (cache, w)).2.1.withTable (cache.table.only c.symbols),
        (c.evaluate Cache.get (cache, w)).2.2) := by
  let kept := cache.table.only c.symbols
  let R (s s' : Cache σ × World σ) : Prop :=
    s'.1.table = cache.table ∧ s = (s'.1.withTable kept, s'.2)
  have hsame : ∀ name s s', name ∈ c.names → R s s' →
      (Cache.get name s).1 = (Cache.get name s').1 ∧
        R (Cache.get name s).2 (Cache.get name s').2 := by
    rintro name _ ⟨d, v⟩ hname ⟨htable, rfl⟩
    have hentry : kept.get? name = d.table.get? name := by
      rw [NameMap.get?_only (mem_symbols.mpr hname), htable]
    rw [Cache.get_withTable hentry]
    exact ⟨rfl, (d.table_get v name).trans htable, rfl⟩
  rw [← c.run_inquiry, ← c.run_inquiry]
  obtain ⟨hresult, -, hstate⟩ := Inquiry.run_related_of_asks hsame c.inquiry_within.asks
    (show R (cache.withTable kept, w) (cache, w) from ⟨rfl, rfl⟩)
  exact Prod.ext hresult hstate

/-! ### Tables with all the names -/

/-- The table has the name, and every call of its entry gives a value. -/
def Table.Provides (t : Table σ) (name : String) : Prop :=
  ∃ symbol, t.get? name = some symbol ∧ ∀ w, ∃ v, (symbol.resolve name w).1 = .ok v

theorem Table.Provides.get {t : Table σ} {name : String} (h : t.Provides name) (w : World σ) :
    ∃ v, (t.get name w).1 = .ok v := by
  obtain ⟨symbol, hsymbol, hvalue⟩ := h
  obtain ⟨v, hv⟩ := hvalue w
  exact ⟨v, by rw [Table.get, hsymbol, hv]⟩

/-- A cache over the table can fail only for an attempt that has not ended. -/
theorem Cache.eq_crash_of_get {c : Cache σ} {name : String} (h : c.table.Provides name)
    {w : World σ} {f : Failure} (hf : (get name (c, w)).1 = .error f) : f = .crash := by
  obtain ⟨symbol, hsymbol, hvalue⟩ := h
  have hgets := c.gets w name
  generalize get name (c, w) = done at hgets hf
  cases hgets with
  | unknown hnone => cases hsymbol.symm.trans hnone
  | known => cases hf
  | stuck => exact (Except.error.inj hf).symm
  | resolves hentry =>
    obtain rfl := Option.some.inj (hsymbol.symm.trans hentry)
    obtain ⟨v, hv⟩ := hvalue w
    cases hv.symm.trans hf

/-- An evaluation fails by one of its requests or for the kinds of the two sides of a comparison. -/
theorem Chain.exists_of_evaluate_error {P : τ → Prop} {source : Source τ}
    (hkeep : ∀ name s, P s → P (source name s).2) {c : Chain} {s : τ} (hs : P s) {f : Failure}
    (h : (c.evaluate source s).1 = .error f) :
    (∃ name ∈ c.symbols, ∃ t, P t ∧ (source name t).1 = .error f) ∨
      ∃ e, f = .error e ∧ e.isTypeError = true := by
  rw [← c.run_inquiry] at h
  rcases Inquiry.error_of_run c.inquiry_endsIn h with ⟨name, hname⟩ | ⟨e, rfl, he⟩
  · refine .inl ⟨name, ?_, Inquiry.exists_of_mem_exchanges hkeep hs hname⟩
    apply mem_symbols.mpr
    exact (c.inquiry_within.sublist source s).subset (List.mem_map_of_mem hname)
  · exact .inr ⟨e, rfl, he e rfl⟩

/-- The names that an evaluation asks for are some of those on the sides of the comparisons, in
their order, so they are among the symbols of the chain. Hence the entries of a table with other
names change neither the result nor what the resolvers do; and if the table has all symbols, each
with a value at every call, the only errors are those of comparisons. -/
theorem Chain.evaluate_within_symbols (c : Chain) :
    (∀ {τ : Type} (source : Source τ) (s : τ),
      ((c.exchanges source s).map Prod.fst).Sublist c.names ∧
        ∀ x ∈ c.exchanges source s, x.1 ∈ c.symbols) ∧
    (∀ {σ : Type} (t : Table σ) (w : World σ),
      c.evaluate (Table.get (t.only c.symbols)) w = c.evaluate t.get w) ∧
    (∀ {σ : Type} (cache : Cache σ) (w : World σ),
      c.evaluate Cache.get (cache.withTable (cache.table.only c.symbols), w) =
        ((c.evaluate Cache.get (cache, w)).1,
          (c.evaluate Cache.get (cache, w)).2.1.withTable (cache.table.only c.symbols),
          (c.evaluate Cache.get (cache, w)).2.2)) ∧
    (∀ {σ : Type} (t : Table σ) (w : World σ), (∀ name ∈ c.symbols, t.Provides name) →
      ∀ f, (c.evaluate t.get w).1 = .error f → ∃ e, f = .error e ∧ e.isTypeError = true) ∧
    ∀ {σ : Type} (cache : Cache σ) (w : World σ),
      (∀ name ∈ c.symbols, cache.table.Provides name) →
        ∀ e, (c.evaluate Cache.get (cache, w)).1 = .error (.error e) → e.isTypeError = true := by
  refine ⟨fun source s => ?_, c.evaluate_only, c.evaluate_only_cache, fun t w hall f hf => ?_,
    fun {σ} cache w hall e he => ?_⟩
  · have hsublist := c.inquiry_within.sublist source s
    rw [← c.exchanges_eq] at hsublist
    exact ⟨hsublist, fun x hx => mem_symbols.mpr (hsublist.subset (List.mem_map_of_mem hx))⟩
  · rcases exists_of_evaluate_error (P := fun _ => True) (fun _ _ _ => trivial) trivial hf with
      ⟨name, hname, v, -, hfails⟩ | htype
    · obtain ⟨value, hvalue⟩ := (hall name hname).get v
      cases hvalue.symm.trans hfails
    · exact htype
  · have hkeep : ∀ name (s : Cache σ × World σ), s.1.table = cache.table →
        (Cache.get name s).2.1.table = cache.table :=
      fun name s hs => (s.1.table_get s.2 name).trans hs
    rcases exists_of_evaluate_error hkeep rfl he with ⟨name, hname, s, hs, hfails⟩ | ⟨e', he', htype⟩
    · cases Cache.eq_crash_of_get (hs ▸ hall name hname) hfails
    · cases he'
      exact htype

/-- A table of a number that a resolver gives and of a truth. -/
def numberAndTruth : Table Counts :=
  (NameMap.empty.insert "x" (Script.symbol 0 [.value (.integer 1)])).insert "y"
    (.value (.boolean true))

/-- The table has all symbols of `x = 1 and y > 2`, which fails since a truth has no order. -/
theorem Chain.evaluate_within_symbols_unordered :
    let c : Chain := .join (.one (.comparison ⟨.symbol "x", .equal, .literal (.integer 1)⟩)) .and
      (.comparison ⟨.symbol "y", .greater, .literal (.integer 2)⟩)
    let e : EvalError := .unordered .greater (.boolean true)
    (∀ name ∈ c.symbols, numberAndTruth.Provides name) ∧
      (c.evaluate numberAndTruth.get ⟨[], []⟩).1 = .error (.error e) ∧
      (c.evaluate Cache.get (Cache.new numberAndTruth, ⟨[], []⟩)).1 = .error (.error e) ∧
      e.isTypeError = true := by
  intro c e
  have hall : ∀ name ∈ c.symbols, numberAndTruth.Provides name := by
    intro name hname
    have hnames : name = "x" ∨ name = "y" := by
      simpa [names, comparisons, Expr.comparisons, Comparison.names, Operand.names, c] using
        mem_symbols.mp hname
    rcases hnames with rfl | rfl
    · exact ⟨Script.symbol 0 [.value (.integer 1)], rfl, fun w => ⟨.integer 1, by
        simp [Script.symbol, Symbol.resolve, Script.outcome, Outcome.answer]⟩⟩
    · exact ⟨.value (.boolean true), rfl, fun w => ⟨.boolean true, rfl⟩⟩
  have hcached : (c.evaluate Cache.get (Cache.new numberAndTruth, ⟨[], []⟩)).1 =
      .error (.error e) := rfl
  exact ⟨hall, rfl, hcached, (Chain.evaluate_within_symbols c).2.2.2.2 _ _ hall e hcached⟩

end FilterLang
