import FilterLang.CommandLine.Run
import FilterLang.Proofs.Cache.Audit
import FilterLang.Proofs.Cache.Transparent
import FilterLang.Proofs.CommandLine.Arguments
import FilterLang.Proofs.Expr.Discovery

/-! The command with its cache and without it. With the cache it also prints the values that the
evaluation consulted, and nothing else is different. The tables of the command hold data only, whose
values have a written form; so each of the lines can be read as an expression, and it holds. -/

namespace FilterLang

/-! ### A fresh cache over a steady table -/

/-- An evaluation against a fresh cache has the result that it has against the table, and the cache
records what the evaluation against the table gets to know. -/
theorem Cache.evaluate_new {σ : Type} {t : Table σ} (ht : t.IsSteady) (host : σ) (tree : Chain) :
    (tree.evaluate Cache.get (new t, ⟨host, []⟩)).1 = (tree.evaluate t.get ⟨host, []⟩).1 ∧
    ∀ name v, (tree.evaluate Cache.get (new t, ⟨host, []⟩)).2.1.used.get? name = some v ↔
      (name, .ok v) ∈ tree.exchanges t.get ⟨host, []⟩ := by
  have hstart : Shadows t host (new t, ⟨host, []⟩) ⟨host, []⟩ := shadows_new t host
  have hrelated := fun name s plain (h : Shadows t host s plain) => h.get ht name
  have hconsistent : (new t).Consistent := (reachable_new t host).consistent
  rw [← tree.run_inquiry, ← tree.run_inquiry, tree.exchanges_eq]
  refine ⟨(tree.inquiry.run_related hrelated hstart).1, fun name v => ?_⟩
  rw [hconsistent.used_run, tree.inquiry.exchanges_related hrelated hstart]
  exact or_iff_right nofun

/-! ### Tables of data -/

/-- An entry that is a value with a written form, or JSON data. -/
def Symbol.IsData {σ : Type} : Symbol σ → Prop
  | .value v => v.Writable
  | .json data => data.IsFinite
  | .resolver _ => False

/-- Every entry is data. -/
def Table.IsData {σ : Type} (t : Table σ) : Prop :=
  ∀ name symbol, t.get? name = some symbol → symbol.IsData

section Data

variable {σ : Type} {t : Table σ} {name : String} {v : Value}

theorem Table.isData_empty : Table.IsData (.empty : Table σ) := nofun

theorem Table.IsData.insertAll {entries : List (String × Symbol σ)} (ht : t.IsData)
    (h : ∀ e ∈ entries, e.2.IsData) : Table.IsData (t.insertAll entries) := by
  induction entries generalizing t with
  | nil => exact ht
  | cons e rest ih =>
    obtain ⟨hfirst, hrest⟩ := List.forall_mem_cons.mp h
    have hinsert : Table.IsData (t.insert e.1 e.2) := by
      intro name symbol hsymbol
      rw [NameMap.get?_insert] at hsymbol
      split at hsymbol
      · exact Option.some.inj hsymbol ▸ hfirst
      · exact ht name symbol hsymbol
    exact ih hinsert hrest

theorem Table.isData_ofMembers {members : List (String × Json)}
    (h : Json.IsFinite (.object members)) : Table.IsData (.ofMembers members : Table σ) := by
  cases h with
  | object hall =>
    refine isData_empty.insertAll fun e he => ?_
    obtain ⟨m, hm, rfl⟩ := List.mem_map.mp he
    exact hall m hm

/-- Data has no resolvers. -/
theorem Table.IsData.isSteady (ht : t.IsData) : t.IsSteady :=
  fun name _ hrun => (ht name _ hrun).elim

/-- Data gives values with a written form, and nothing happens when it is asked for them. -/
theorem Table.IsData.get_ok (ht : t.IsData) {w : World σ} (h : (t.get name w).1 = .ok v) :
    v.Writable ∧ ∀ w', t.get name w' = (.ok v, w') := by
  unfold Table.get at h ⊢
  split at h
  next symbol hsymbol =>
    have hdata := ht name symbol hsymbol
    cases symbol with
    | value u =>
      obtain rfl := Except.ok.inj h
      exact ⟨hdata, fun w' => rfl⟩
    | json data =>
      simp only [Symbol.resolve] at h ⊢
      split at h
      next u hu =>
        obtain rfl := Except.ok.inj h
        exact ⟨Value.writable_of_ofJson? hdata hu, fun w' => rfl⟩
      next => cases h
    | resolver run => exact hdata.elim
  next => cases h

end Data

/-! ### Lines that hold -/

/-- A value with a written form equals itself. -/
theorem Relation.compare_self {v : Value} (h : v.Writable) :
    Relation.equal.compare v v = .ok true := by
  cases v with
  | integer n => simp [compare, isEquality, Value.equal?, holdsOnEquality]
  | real x =>
    obtain ⟨negative, m, rfl⟩ := h
    simp [compare, isEquality, Value.equal?, holdsOnEquality, Binary64.same, Binary64.order?,
      Binary64.rank?]
  | text s => simp [compare, isEquality, Value.equal?, holdsOnEquality]
  | boolean b => simp [compare, isEquality, Value.equal?, holdsOnEquality]

/-- The tree that says what a name stands for. -/
def Chain.binding (name : String) (v : Value) : Chain :=
  .one (.comparison ⟨.symbol name, .equal, .literal v⟩)

theorem Chain.render_binding (name : String) (v : Value) :
    (Chain.binding name v).render = name ++ " = " ++ v.render := by
  have hrender : (Chain.binding name v).render = name ++ " " ++ "=" ++ " " ++ v.render := rfl
  rw [hrender, show " = " = " " ++ "=" ++ " " from rfl]
  simp only [String.append_assoc]

theorem Chain.parse_binding {name : String} {v : Value} (hname : IsName name) (hv : v.Writable) :
    parse (name ++ " = " ++ v.render) = .ok (Chain.binding name v) := by
  rw [← Chain.render_binding]
  refine Chain.Writable.parse_render ⟨fun d hd => ?_, Nat.zero_le _⟩
  obtain rfl := List.mem_singleton.mp hd
  exact ⟨hname, hv⟩

theorem Chain.evaluate_binding {τ : Type} {source : Source τ} {name : String} {v : Value} {s s' : τ}
    (h : source name s = (.ok v, s')) (hv : v.Writable) :
    ((Chain.binding name v).evaluate source s).1 = .ok true := by
  simp only [Chain.binding, Chain.evaluate, Expr.evaluate, Comparison.evaluate, Operand.resolve, h,
    Relation.compare_self hv]
  rfl

/-- The symbols of a tree with a written form are named by names. -/
theorem Chain.Writable.isName {c : Chain} (h : c.Writable) {name : String}
    (hname : name ∈ c.names) : IsName name := by
  obtain ⟨d, hd, hname⟩ := List.mem_flatMap.mp hname
  obtain ⟨hleft, hright⟩ := h.operands d hd
  have hoperand : ∀ o : Operand, o.Writable → name ∈ o.names → IsName name := by
    intro o ho hmem
    cases o with
    | literal v => cases hmem
    | symbol n => exact List.mem_singleton.mp hmem ▸ ho
  exact (List.mem_append.mp hname).elim (hoperand _ hleft) (hoperand _ hright)

namespace CommandLine

theorem resultStatus_ne_two (b : Bool) : resultStatus b ≠ 2 := by
  cases b <;> decide

/-- What a fresh cache over the table has recorded when the tree is evaluated. -/
def record (tree : Chain) (t : Table Unit) : NameMap Value :=
  (tree.evaluate Cache.get (.new t, ⟨(), []⟩)).2.1.used

/-- If there is a result, everything that was asked for is recorded with its value. -/
theorem mem_exchanges_iff {t : Table Unit} {tree : Chain} {b : Bool} (ht : t.IsSteady)
    (hb : (tree.evaluate t.get ⟨(), []⟩).1 = .ok b) (name : String)
    (answer : Except Failure Value) :
    (name, answer) ∈ tree.exchanges t.get ⟨(), []⟩ ↔
      ∃ v, answer = .ok v ∧ (record tree t).get? name = some v := by
  have hrecord := (Cache.evaluate_new ht () tree).2 name
  cases answer with
  | ok v => simp [record, hrecord]
  | error f =>
    refine iff_of_false (fun hmem => ?_) nofun
    rw [tree.exchanges_eq] at hmem
    have hfails := (Inquiry.run_of_failed hmem).1
    rw [tree.run_inquiry, hb] at hfails
    cases hfails

/-- A line for each name with its value, in ascending order of the names. -/
def valueLines (values : NameMap Value) : String :=
  String.join (values.entries.map fun e => line (e.1 ++ " = " ++ e.2.render))

namespace Command

variable {c : Command} {files : Files} {t : Table Unit} {tree : Chain} {name : String} {v : Value}

/-! ### Runs -/

/-- How a run of the command can end. -/
inductive Ends (c : Command) (files : Files) : Report → Prop
  | unread {e : ParseError} : parse c.expression = .error e → Ends c files ⟨2, "", e.message⟩
  | listed {tree : Chain} : parse c.expression = .ok tree → c.list = true →
    Ends c files ⟨0, String.join (tree.symbols.map line), ""⟩
  | noTable {tree : Chain} {e : RunError} : parse c.expression = .ok tree → c.list = false →
    c.table files = .error e → Ends c files ⟨2, "", e.message⟩
  | failed {tree : Chain} {t : Table Unit} {f : Failure} : parse c.expression = .ok tree →
    c.list = false → c.table files = .ok t → c.evaluate tree t = .error f →
    Ends c files ⟨2, "", (RunError.failure f).message⟩
  | evaluated {tree : Chain} {t : Table Unit} {b : Bool} {consulted : List String} :
    parse c.expression = .ok tree → c.list = false → c.table files = .ok t →
    c.evaluate tree t = .ok (b, consulted) →
    Ends c files ⟨resultStatus b, String.join ((resultText b :: consulted).map line), ""⟩

theorem lines_eq (c : Command) (files : Files) : c.lines files =
    ((parse c.expression).mapError RunError.parse).bind fun tree =>
      if c.list then .ok (0, tree.symbols)
      else (c.table files).bind fun t =>
        ((c.evaluate tree t).mapError RunError.failure).bind fun done =>
          .ok (resultStatus done.1, resultText done.1 :: done.2) := rfl

theorem Ends.run_eq {r : Report} (h : c.Ends files r) : c.run files = r := by
  rw [run, lines_eq]
  cases h with
  | unread htree => rw [htree]; rfl
  | listed htree hlist => rw [htree, hlist]; rfl
  | noTable htree hlist ht => rw [htree, hlist, ht]; rfl
  | failed htree hlist ht hdone =>
    rw [htree, hlist, ht]
    simp [Except.mapError, Except.bind, hdone]
  | evaluated htree hlist ht hdone =>
    rw [htree, hlist, ht]
    simp [Except.mapError, Except.bind, hdone]

theorem exists_ends (c : Command) (files : Files) : ∃ r, c.Ends files r := by
  cases htree : parse c.expression with
  | error e => exact ⟨_, .unread htree⟩
  | ok tree =>
    cases hlist : c.list with
    | true => exact ⟨_, .listed htree hlist⟩
    | false =>
      cases ht : c.table files with
      | error e => exact ⟨_, .noTable htree hlist ht⟩
      | ok t =>
        cases hdone : c.evaluate tree t with
        | error f => exact ⟨_, .failed htree hlist ht hdone⟩
        | ok done => exact ⟨_, .evaluated htree hlist ht hdone⟩

theorem ends (c : Command) (files : Files) : c.Ends files (c.run files) := by
  obtain ⟨r, hr⟩ := c.exists_ends files
  rwa [hr.run_eq]

/-! ### The table -/

theorem isData_of_fileTable {path : String} (h : fileTable files path = .ok t) : t.IsData := by
  rw [fileTable] at h
  split at h
  · cases h
  · split at h
    next members hmembers =>
      cases h
      exact Table.isData_ofMembers (Json.isFinite_of_read? hmembers)
    next => cases h

theorem isData_of_table (hdefinitions : ∀ d ∈ c.definitions, d.value.Writable)
    (h : c.table files = .ok t) : t.IsData := by
  obtain ⟨file, hfile, rfl⟩ := map_eq_ok_iff.mp h
  refine Table.IsData.insertAll ?_ fun e he => ?_
  · split at hfile
    · exact isData_of_fileTable hfile
    · cases hfile
      exact Table.isData_empty
  · obtain ⟨d, hd, rfl⟩ := List.mem_map.mp he
    exact hdefinitions d hd

/-! ### What is printed besides the result -/

/-- In the evaluation of the command, the name is asked for and this is the answer. -/
def Consults (c : Command) (files : Files) (name : String) (answer : Except Failure Value) : Prop :=
  ∃ tree t, parse c.expression = .ok tree ∧ c.list = false ∧ c.table files = .ok t ∧
    (name, answer) ∈ tree.exchanges t.get ⟨(), []⟩

theorem consults_iff {answer : Except Failure Value} (htree : parse c.expression = .ok tree)
    (hlist : c.list = false) (ht : c.table files = .ok t) :
    c.Consults files name answer ↔ (name, answer) ∈ tree.exchanges t.get ⟨(), []⟩ := by
  constructor
  · rintro ⟨tree', t', htree', -, ht', hmem⟩
    obtain rfl := Except.ok.inj (htree.symm.trans htree')
    obtain rfl := Except.ok.inj (ht.symm.trans ht')
    exact hmem
  · exact fun hmem => ⟨tree, t, htree, hlist, ht, hmem⟩

theorem evaluate_plain (hc : c.cached = false) (tree : Chain) (t : Table Unit) :
    c.evaluate tree t = (tree.evaluate t.get ⟨(), []⟩).1.map fun b => (b, []) := by
  simp [evaluate, hc]

/-- With the cache, the record is added to the result. -/
theorem evaluate_cached (hc : c.cached = false) (ht : t.IsSteady) (tree : Chain) :
    evaluate { c with cached := true } tree t = (c.evaluate tree t).map fun done =>
      (done.1, (record tree t).entries.map fun e => e.1 ++ " = " ++ e.2.render) := by
  have hsame := (Cache.evaluate_new ht () tree).1
  rw [evaluate_plain hc, ← hsame, evaluate, if_pos rfl, record]
  rcases tree.evaluate Cache.get (.new t, ⟨(), []⟩) with ⟨result, cache, w⟩
  cases result <;> rfl

/-- With the cache, the output goes on with the values that the evaluation has consulted, if there
is a result. -/
theorem exists_consulted (hc : c.cached = false)
    (hdefinitions : ∀ d ∈ c.definitions, d.value.Writable) (files : Files) :
    ∃ consulted : NameMap Value,
      { c with cached := true }.run files = ⟨(c.run files).status,
        (c.run files).output ++ valueLines consulted, (c.run files).error⟩ ∧
      ∀ name answer, (c.run files).status ≠ 2 ∧ c.Consults files name answer ↔
        ∃ v, answer = .ok v ∧ consulted.get? name = some v := by
  have hends := c.ends files
  generalize c.run files = r at hends ⊢
  -- Where no evaluation has a result, both runs leave the same report.
  have hnothing : Ends { c with cached := true } files r →
      (∀ name answer, c.Consults files name answer → r.status = 2) →
      ∃ consulted : NameMap Value, { c with cached := true }.run files =
          ⟨r.status, r.output ++ valueLines consulted, r.error⟩ ∧
        ∀ name answer, r.status ≠ 2 ∧ c.Consults files name answer ↔
          ∃ v, answer = .ok v ∧ consulted.get? name = some v := by
    intro hsame hnone
    refine ⟨.empty, ?_, fun name answer => iff_of_false ?_ nofun⟩
    · have hempty : valueLines .empty = "" := rfl
      rw [hsame.run_eq, hempty, String.append_empty]
    · exact fun h => h.1 (hnone name answer h.2)
  cases hends with
  | unread htree => exact hnothing (.unread htree) fun name answer h => rfl
  | listed htree hlist =>
    refine hnothing (.listed htree hlist) fun name answer h => ?_
    obtain ⟨-, -, -, hevaluates, -⟩ := h
    cases hlist.symm.trans hevaluates
  | noTable htree hlist ht => exact hnothing (.noTable htree hlist ht) fun name answer h => rfl
  | failed htree hlist ht hdone =>
    have hsteady := (isData_of_table hdefinitions ht).isSteady
    refine hnothing (.failed htree hlist ht ?_) fun name answer h => rfl
    rw [evaluate_cached hc hsteady, hdone]
    rfl
  | @evaluated tree t b lines htree hlist ht hdone =>
    have hsteady := (isData_of_table hdefinitions ht).isSteady
    have hcached := (evaluate_cached hc hsteady tree).trans (congrArg _ hdone)
    have hreport : Ends { c with cached := true } files _ := .evaluated htree hlist ht hcached
    rw [evaluate_plain hc] at hdone
    obtain ⟨_, hb, hlines⟩ := map_eq_ok_iff.mp hdone
    cases hlines
    refine ⟨record tree t, ?_, fun name answer => ?_⟩
    · rw [hreport.run_eq]
      simp [valueLines, Function.comp_def]
    · rw [consults_iff htree hlist ht, ← mem_exchanges_iff hsteady hb]
      exact and_iff_right (resultStatus_ne_two b)

/-! ### The lines read again -/

theorem Consults.mem_symbols {answer : Except Failure Value} (h : c.Consults files name answer) :
    ∃ tree, parse c.expression = .ok tree ∧ name ∈ tree.symbols := by
  obtain ⟨tree, t, htree, -, -, hmem⟩ := h
  rw [tree.exchanges_eq] at hmem
  have hsublist := tree.inquiry_within.sublist t.get ⟨(), []⟩
  exact ⟨tree, htree, Chain.mem_symbols.mpr (hsublist.subset (List.mem_map_of_mem hmem))⟩

/-- A value that the evaluation got to know is what its name stands for at any time. -/
theorem Consults.run_binding (hdefinitions : ∀ d ∈ c.definitions, d.value.Writable)
    (h : c.Consults files name (.ok v)) :
    run { c with list := false, cached := false, expression := name ++ " = " ++ v.render } files =
      ⟨0, line "true", ""⟩ := by
  obtain ⟨tree, htree, hname⟩ := h.mem_symbols
  obtain ⟨tree', t, -, -, ht, hmem⟩ := h
  have hdata := isData_of_table hdefinitions ht
  rw [tree'.exchanges_eq] at hmem
  obtain ⟨w, -, hw⟩ := Inquiry.exists_of_mem_exchanges (P := fun _ => True)
    (fun _ _ _ => trivial) trivial hmem
  obtain ⟨hv, hget⟩ := hdata.get_ok hw
  have hisName := (Chain.writable_of_parse htree).isName (Chain.mem_symbols.mp hname)
  let check : Command :=
    { c with list := false, cached := false, expression := name ++ " = " ++ v.render }
  have hevaluate : check.evaluate (Chain.binding name v) t = .ok (true, []) := by
    rw [evaluate_plain rfl, Chain.evaluate_binding (hget _) hv]
    rfl
  have htable : check.table files = .ok t := ht
  have hends : check.Ends files _ :=
    .evaluated (Chain.parse_binding hisName hv) rfl htable hevaluate
  exact hends.run_eq.trans (by decide)

end Command

open Command

/-- Let arguments be accepted that do not ask for the cache. If they do ask for it, the command
leaves the same status and the same error, and where the evaluation has a result, the output goes on
with a line for every symbol that the evaluation has asked for, in ascending order of their names. A
listing of the expression has these names among its lines; and a line that is taken for the
expression holds, with the cache and without it. -/
theorem run_cached {arguments : List String} {c : Command} (h : read arguments = .ok c)
    (hc : c.cached = false) (files : Files) :
    read ("--cached" :: arguments) = .ok { c with cached := true } ∧
    ∃ consulted : NameMap Value,
      run { c with cached := true } files = ⟨(c.run files).status,
        (c.run files).output ++ valueLines consulted, (c.run files).error⟩ ∧
      (∀ name answer, (c.run files).status ≠ 2 ∧ c.Consults files name answer ↔
        ∃ v, answer = .ok v ∧ consulted.get? name = some v) ∧
      (∀ name ∈ consulted.names, ∃ symbols : List String, name ∈ symbols ∧
        run { c with list := true } files = ⟨0, String.join (symbols.map line), ""⟩) ∧
      ∀ name v, consulted.get? name = some v → ∀ cached,
        let check : Command :=
          { c with list := false, cached := cached, expression := name ++ " = " ++ v.render }
        (check.run files).status = 0 ∧ (check.run files).error = "" := by
  have hdefinitions := writable_of_mem_definitions h
  obtain ⟨consulted, hrun, hconsulted⟩ := exists_consulted hc hdefinitions files
  refine ⟨read_cached h hc, consulted, hrun, hconsulted, fun name hname => ?_,
    fun name v hv cached => ?_⟩
  · obtain ⟨v, hv⟩ := Option.isSome_iff_exists.mp (NameMap.mem_names_iff.mp hname)
    obtain ⟨-, hconsults⟩ := (hconsulted name (.ok v)).mpr ⟨v, rfl, hv⟩
    obtain ⟨tree, htree, hsymbol⟩ := hconsults.mem_symbols
    have hends : Ends { c with list := true } files _ := .listed htree rfl
    exact ⟨tree.symbols, hsymbol, hends.run_eq⟩
  · obtain ⟨-, hconsults⟩ := (hconsulted name (.ok v)).mpr ⟨v, rfl, hv⟩
    have hline := hconsults.run_binding hdefinitions
    cases cached with
    | false => exact ⟨congrArg Report.status hline, congrArg Report.error hline⟩
    | true =>
      let check : Command :=
        { c with list := false, cached := false, expression := name ++ " = " ++ v.render }
      obtain ⟨values, hcheck, -⟩ := exists_consulted (c := check) rfl hdefinitions files
      exact ⟨(congrArg Report.status hcheck).trans (congrArg Report.status hline),
        (congrArg Report.error hcheck).trans (congrArg Report.error hline)⟩

/-- The evaluation stops at `x`, so that `y` is not consulted. -/
theorem run_cached_decided :
    let c : Command :=
      ⟨[⟨"x", .integer 1⟩, ⟨"y", .text "a"⟩], none, false, false, "x > 0 or y = 2"⟩
    let files : Files := ⟨fun _ => .error "absent", fun _ => "expected a map"⟩
    read ["-s", "x=1", "-s", "y=a", "x > 0 or y = 2"] = .ok c ∧ c.cached = false ∧
      run { c with cached := true } files = ⟨0, "true\nx = 1\n", ""⟩ ∧
      ∃ consulted : NameMap Value,
        run { c with cached := true } files = ⟨0, "true\n" ++ valueLines consulted, ""⟩ ∧
        ∀ name answer, c.Consults files name answer ↔
          ∃ v, answer = .ok v ∧ consulted.get? name = some v := by
  intro c files
  have hread : read ["-s", "x=1", "-s", "y=a", "x > 0 or y = 2"] = .ok c := rfl
  have hplain : c.run files = ⟨0, "true\n", ""⟩ := by decide +kernel
  have hcached : run { c with cached := true } files = ⟨0, "true\nx = 1\n", ""⟩ := by
    decide +kernel
  obtain ⟨-, consulted, hrun, hconsulted, -⟩ := run_cached hread rfl files
  rw [hplain] at hrun hconsulted
  refine ⟨hread, rfl, hcached, consulted, hrun, fun name answer => ?_⟩
  exact (and_iff_right (by decide)).symm.trans (hconsulted name answer)

end CommandLine

end FilterLang
