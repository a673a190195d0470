import FilterLang.Proofs.CommandLine.Consulted
import FilterLang.Proofs.CommandLine.Items
import Mathlib.Data.List.Sort

/-! Which definition of a name counts. The last option that defines a name has precedence over those
before it, and over the symbols file; so the run of a command is the evaluation against the table
that follows this rule, and the items of a command line can change places as long as the definitions
of each name stay in their order. -/

namespace FilterLang

/-! ### The last entry for a name -/

section Entries

variable {α : Type}

theorem find?_reverse_eq_some_iff {p : α → Bool} {xs : List α} {x : α} :
    xs.reverse.find? p = some x ↔
      p x = true ∧ ∃ before after, xs = before ++ x :: after ∧ ∀ y ∈ after, p y = false := by
  rw [List.find?_eq_some_iff_append]
  refine and_congr_right fun _ => ⟨?_, ?_⟩
  · rintro ⟨after, before, hxs, hafter⟩
    refine ⟨before.reverse, after.reverse, ?_, fun y hy => ?_⟩
    · simpa using List.reverse_eq_append_iff.mp hxs
    · simpa using hafter y (List.mem_reverse.mp hy)
  · rintro ⟨before, after, rfl, hafter⟩
    refine ⟨after.reverse, before.reverse, by simp, fun y hy => ?_⟩
    simpa using hafter y (List.mem_reverse.mp hy)

namespace NameMap

theorem mem_iff_find? {es : List (String × α)} (hes : Ascending (es.map Prod.fst)) {name : String}
    {v : α} : (name, v) ∈ es ↔ find? name es = some v := by
  induction es with
  | nil => simp [find?]
  | cons first rest ih =>
    obtain ⟨n, w⟩ := first
    obtain ⟨hfirst, hrest⟩ := List.pairwise_cons.mp hes
    rw [List.mem_cons, ih hrest, find?]
    split
    next heq =>
      subst heq
      have hnone : find? name rest ≠ some v := fun hv =>
        Std.lt_irrefl (hfirst name (mem_names_of_find? hv))
      simp [hnone, eq_comm]
    next hne => simp [hne]

/-- A map is determined by the values that it gives to names. -/
theorem ext_get? {m m' : NameMap α} (h : ∀ name, m.get? name = m'.get? name) : m = m' := by
  obtain ⟨es, hes⟩ := m
  obtain ⟨es', hes'⟩ := m'
  have hsame : ∀ e, e ∈ es ↔ e ∈ es' := fun e => by
    rw [mem_iff_find? hes, mem_iff_find? hes']
    exact iff_of_eq (congrArg (· = some e.2) (h e.1))
  have hirrefl : Std.Irrefl fun e e' : String × α => e.1 < e'.1 := ⟨fun e => Std.lt_irrefl⟩
  have hantisymm : Std.Antisymm fun e e' : String × α => e.1 < e'.1 :=
    ⟨fun e e' h h' => (Std.lt_irrefl (Std.lt_trans h h')).elim⟩
  obtain rfl := (List.pairwise_map.mp hes).eq_of_mem_iff (List.pairwise_map.mp hes') hsame
  rfl

/-- After entries have been put in, a name has the value of the last entry for it. -/
theorem get?_insertAll (m : NameMap α) (es : List (String × α)) (name : String) :
    (m.insertAll es).get? name =
      ((es.reverse.find? (·.1 = name)).map Prod.snd).or (m.get? name) := by
  induction es generalizing m with
  | nil => rfl
  | cons e rest ih =>
    have hinsert : m.insertAll (e :: rest) = (m.insert e.1 e.2).insertAll rest := rfl
    rw [hinsert, ih, get?_insert, List.reverse_cons, List.find?_append]
    by_cases h : e.1 = name
    · cases rest.reverse.find? (·.1 = name) <;> simp [h]
    · cases rest.reverse.find? (·.1 = name) <;> simp [h, Ne.symm h]

/-- Only the order of the entries for each name matters. -/
theorem insertAll_eq {es es' : List (String × α)}
    (h : ∀ name, es.filter (·.1 = name) = es'.filter (·.1 = name)) (m : NameMap α) :
    m.insertAll es = m.insertAll es' := by
  refine ext_get? fun name => ?_
  rw [get?_insertAll, get?_insertAll, ← List.head?_filter, ← List.head?_filter,
    List.filter_reverse, List.filter_reverse, h]

end NameMap

end Entries

namespace CommandLine

/-! ### Definitions -/

/-- The value of an option defines the name as `v`: in front of the first equals sign stands the
name with blanks around it, and behind it the value. -/
def Defines (argument name : String) (v : Value) : Prop :=
  ∃ before text, argument.toList = before ++ '=' :: text ∧ '=' ∉ before ∧
    Text.trim before = name.toList ∧ name ≠ "" ∧ v = valueOf (String.ofList text)

theorem Definition.read_eq_ok_iff {argument name : String} {v : Value} :
    read argument = .ok ⟨name, v⟩ ↔ Defines argument name v := by
  have hsplit := argument.toList.takeWhile_append_dropWhile (p := (· ≠ '='))
  have hsign := argument.toList.head?_dropWhile_not (· ≠ '=')
  constructor
  · intro h
    simp only [read] at h
    split at h
    next => cases h
    next c text hend =>
      rw [hend] at hsplit hsign
      obtain rfl : c = '=' := by simpa using hsign
      split at h
      next => cases h
      next hname =>
        cases h
        refine ⟨_, text, hsplit.symm, fun hmem => ?_, by simp, fun hempty => ?_, rfl⟩
        · simpa using List.mem_takeWhile_imp hmem
        · exact hname (by simpa using congrArg String.toList hempty)
  · rintro ⟨before, text, hargument, hbefore, htrim, hname, hvalue⟩
    have hall : ∀ c ∈ before, decide (c ≠ '=') = true := fun c hc =>
      decide_eq_true fun heq => hbefore (heq ▸ hc)
    have htake : argument.toList.takeWhile (· ≠ '=') = before := by
      rw [hargument, List.takeWhile_append_of_pos hall]
      simp
    have hdrop : argument.toList.dropWhile (· ≠ '=') = '=' :: text := by
      rw [hargument, List.dropWhile_append_of_pos hall]
      simp
    have hne : name.toList ≠ [] := fun hnil => hname (String.toList_eq_nil_iff.mp hnil)
    simp only [read, hdrop, htake, htrim]
    rw [← hvalue, String.ofList_toList]

/-- The value of an option defines the name. -/
def Names (argument name : String) : Prop := ∃ v, Defines argument name v

theorem names_iff {argument name : String} :
    (Definition.read argument).toOption.map Definition.name = some name ↔ Names argument name := by
  simp only [Names, ← Definition.read_eq_ok_iff]
  rcases Definition.read argument with e | ⟨n, v⟩ <;> simp [Except.toOption]

instance (argument name : String) : Decidable (Names argument name) :=
  decidable_of_iff _ names_iff

/-- What a name is, by the values of the options that define symbols and the members of the symbols
file: what the last of the options says that define it, or else its last member in the file. -/
inductive Assigned (values : List String) (members : List (String × Json)) (name : String) :
    Option (Symbol Unit) → Prop
  | definition {before after : List String} {argument : String} {v : Value} :
    values = before ++ argument :: after → Defines argument name v →
    (∀ a ∈ after, ¬ Names a name) → Assigned values members name (some (.value v))
  | member {before after : List (String × Json)} {data : Json} :
    (∀ a ∈ values, ¬ Names a name) → members = before ++ (name, data) :: after →
    (∀ m ∈ after, m.1 ≠ name) → Assigned values members name (some (.json data))
  | nothing : (∀ a ∈ values, ¬ Names a name) → (∀ m ∈ members, m.1 ≠ name) →
    Assigned values members name none

/-- The members of the symbols file, if there is one. -/
inductive Loads (files : Files) : Option String → List (String × Json) → Prop
  | none : Loads files none []
  | file {path contents : String} {members : List (String × Json)} :
    files.contents path = .ok contents → Json.read? contents = some (.object members) →
    Loads files (some path) members

section Table

variable {values : List String} {ds : List Definition} {members : List (String × Json)}
  {name : String} {s : Option (Symbol Unit)} {files : Files}

/-- The table with the members of a file and then the definitions. -/
def assembled (members : List (String × Json)) (ds : List Definition) : Table Unit :=
  (Table.ofMembers members).insertAll (ds.map fun d => (d.name, .value d.value))

theorem get?_assembled (members : List (String × Json)) (ds : List Definition) (name : String) :
    (assembled members ds).get? name =
      ((ds.reverse.find? (·.name = name)).map fun d => .value d.value).or
        ((members.reverse.find? (·.1 = name)).map fun m => .json m.2) := by
  rw [assembled, NameMap.get?_insertAll, Table.ofMembers, NameMap.ofList, NameMap.get?_insertAll,
    NameMap.get?_empty, Option.or_none, ← List.map_reverse, ← List.map_reverse, List.find?_map,
    List.find?_map, Option.map_map, Option.map_map]
  rfl

theorem forall_not_names_iff (h : values.map Definition.read = ds.map .ok) :
    (∀ a ∈ values, ¬ Names a name) ↔ ∀ d ∈ ds, d.name ≠ name := by
  constructor
  · rintro hvalues ⟨n, v⟩ hd rfl
    have hmem : Except.ok ⟨n, v⟩ ∈ values.map Definition.read := h ▸ List.mem_map_of_mem hd
    obtain ⟨a, ha, hread⟩ := List.mem_map.mp hmem
    exact hvalues a ha ⟨v, Definition.read_eq_ok_iff.mp hread⟩
  · rintro hds a ha ⟨w, hdefines⟩
    have hmem : Definition.read a ∈ ds.map Except.ok := h ▸ List.mem_map_of_mem ha
    rw [Definition.read_eq_ok_iff.mpr hdefines] at hmem
    obtain ⟨d, hd, heq⟩ := List.mem_map.mp hmem
    cases heq
    exact hds _ hd rfl

/-- The last value that defines the name is the one that the last definition of it is read from. -/
theorem exists_last_iff (h : values.map Definition.read = ds.map .ok) {v : Value} :
    (∃ before argument after, values = before ++ argument :: after ∧ Defines argument name v ∧
      ∀ a ∈ after, ¬ Names a name) ↔
    ds.reverse.find? (·.name = name) = some ⟨name, v⟩ := by
  rw [find?_reverse_eq_some_iff]
  constructor
  · rintro ⟨before, argument, after, rfl, hdefines, hafter⟩
    rw [List.map_append, List.map_cons] at h
    obtain ⟨front, back, rfl, -, hback⟩ := List.map_eq_append_iff.mp h.symm
    obtain ⟨d, rest, rfl, hd, hrest⟩ := List.map_eq_cons_iff.mp hback
    cases hd.trans (Definition.read_eq_ok_iff.mpr hdefines)
    exact ⟨by simp, front, rest, rfl,
      by simpa using (forall_not_names_iff hrest.symm).mp hafter⟩
  · rintro ⟨-, front, rest, rfl, hrest⟩
    rw [List.map_append, List.map_cons] at h
    obtain ⟨before, back, rfl, -, hback⟩ := List.map_eq_append_iff.mp h
    obtain ⟨argument, after, rfl, hargument, hafter⟩ := List.map_eq_cons_iff.mp hback
    exact ⟨before, argument, after, rfl, Definition.read_eq_ok_iff.mp hargument,
      (forall_not_names_iff hafter).mpr (by simpa using hrest)⟩

/-- The table assigns the names by the rule. -/
theorem assigned_iff (h : values.map Definition.read = ds.map .ok) :
    Assigned values members name s ↔ s = (assembled members ds).get? name := by
  have hvalues : (∀ a ∈ values, ¬ Names a name) ↔
      ds.reverse.find? (·.name = name) = none := by
    rw [forall_not_names_iff h]
    simp
  rw [get?_assembled]
  constructor
  · rintro (⟨hsplit, hdefines, hafter⟩ | ⟨hnot, hmembers, hafter⟩ | ⟨hnot, hmembers⟩)
    · rw [(exists_last_iff h).mp ⟨_, _, _, hsplit, hdefines, hafter⟩]
      rfl
    · have hlast : members.reverse.find? (·.1 = name) = some (name, _) :=
        find?_reverse_eq_some_iff.mpr ⟨by simp, _, _, hmembers, by simpa using hafter⟩
      rw [hvalues.mp hnot, hlast]
      rfl
    · have hnone : members.reverse.find? (·.1 = name) = none := by simpa using hmembers
      rw [hvalues.mp hnot, hnone]
      rfl
  · rintro rfl
    cases hd : ds.reverse.find? (·.name = name) with
    | some d =>
      obtain ⟨n, v⟩ := d
      obtain rfl : n = name := by simpa using List.find?_some hd
      obtain ⟨before, argument, after, hsplit, hdefines, hafter⟩ := (exists_last_iff h).mpr hd
      exact .definition hsplit hdefines hafter
    | none =>
      have hnot := hvalues.mpr hd
      cases hm : members.reverse.find? (·.1 = name) with
      | some m =>
        obtain ⟨n, data⟩ := m
        obtain ⟨hname, before, after, hmembers, hafter⟩ := find?_reverse_eq_some_iff.mp hm
        obtain rfl : n = name := of_decide_eq_true hname
        exact .member hnot hmembers (by simpa using hafter)
      | none => exact .nothing hnot (by simpa using hm)

end Table

namespace Command

variable {c : Command} {files : Files} {t : Table Unit}

theorem table_eq_ok_iff : c.table files = .ok t ↔
    ∃ members, Loads files c.file members ∧ t = assembled members c.definitions := by
  rw [table, map_eq_ok_iff]
  constructor
  · rintro ⟨file, hfile, rfl⟩
    split at hfile
    next path hpath =>
      rw [fileTable] at hfile
      split at hfile
      next => cases hfile
      next contents hcontents =>
        split at hfile
        next members hmembers =>
          cases hfile
          exact ⟨members, hpath ▸ .file hcontents hmembers, rfl⟩
        next => cases hfile
    next hpath =>
      cases hfile
      exact ⟨[], hpath ▸ .none, rfl⟩
  · rintro ⟨members, hloads, rfl⟩
    refine ⟨.ofMembers members, ?_, rfl⟩
    cases hfile : c.file with
    | none =>
      rw [hfile] at hloads
      cases hloads
      rfl
    | some path =>
      rw [hfile] at hloads
      cases hloads with
      | file hcontents hmembers => simp [fileTable, hcontents, hmembers]

end Command

/-! ### Other orders -/

/-- The same items in another order, with the definitions of each name in the order that they have
had. -/
structure Rearranges (items items' : List Item) : Prop where
  perm : items.Perm items'
  definitions : ∀ name, (valuesOf .symbol items).filter (Names · name) =
    (valuesOf .symbol items').filter (Names · name)

theorem filter_names {values : List String} {ds : List Definition}
    (h : values.map Definition.read = ds.map .ok) (name : String) :
    (values.filter (Names · name)).map Definition.read =
      (ds.filter (·.name = name)).map .ok := by
  let q : Except DefinitionError Definition → Bool :=
    fun r => r.toOption.map Definition.name = some name
  have hvalues : (fun a => decide (Names a name)) = q ∘ Definition.read :=
    funext fun a => decide_eq_decide.mpr names_iff.symm
  have hds : (fun d : Definition => decide (d.name = name)) = q ∘ .ok :=
    funext fun d => by simp [q, Except.toOption]
  rw [hvalues, hds, ← List.filter_map, ← List.filter_map, h]

theorem eq_toList_of_perm {α : Type} {xs ys : List α} {y : Option α} (h : xs.Perm ys)
    (hxs : xs = y.toList) : ys = y.toList := by
  subst hxs
  cases y with
  | none => exact List.nil_perm.mp h
  | some y => exact (List.singleton_perm.mp h).symm

/-- The rearranged items come to the same, but for the order of definitions of different names. -/
theorem Options.Gathers.rearrange {o : Options} {items items' : List Item} (ho : o.Gathers items)
    (h : Rearranges items items') : ∃ ds, Gathers { o with definitions := ds } items' ∧
      ∀ name, ds.filter (·.name = name) = o.definitions.filter (·.name = name) := by
  have hvalues : ∀ option, (valuesOf option items).Perm (valuesOf option items') :=
    fun option => h.perm.filterMap (Item.value? option)
  have hread : ∀ r ∈ (valuesOf .symbol items').map Definition.read, ∃ d, .ok d = r := by
    intro r hr
    have hmem := ((hvalues .symbol).map Definition.read).mem_iff.mpr hr
    rw [ho.definitions] at hmem
    obtain ⟨d, -, hd⟩ := List.mem_map.mp hmem
    exact ⟨d, hd⟩
  obtain ⟨ds, hds⟩ : (valuesOf .symbol items').map Definition.read ∈ Set.range (List.map .ok) := by
    rw [Set.range_list_map]
    exact hread
  refine ⟨ds, ⟨hds.symm, eq_toList_of_perm (hvalues .file) ho.file, ho.file_ne, ?_, ?_,
    eq_toList_of_perm (h.perm.filterMap _) ho.expression⟩, fun name => ?_⟩
  · rw [← h.perm.count_eq, ho.list]
  · rw [← h.perm.count_eq, ho.cached]
  · have hsame := filter_names hds.symm name
    rw [← h.definitions, filter_names ho.definitions] at hsame
    exact ((List.map_inj_right fun _ _ => Except.ok.inj).mp hsame).symm

theorem Command.run_eq_of_filter {c : Command} {ds : List Definition}
    (h : ∀ name, ds.filter (·.name = name) = c.definitions.filter (·.name = name)) (files : Files) :
    run { c with definitions := ds } files = c.run files := by
  have hentries : ∀ t : Table Unit, t.insertAll (ds.map fun d => (d.name, .value d.value)) =
      t.insertAll (c.definitions.map fun d => (d.name, .value d.value)) := fun t => by
    refine NameMap.insertAll_eq (fun name => ?_) t
    rw [List.filter_map, List.filter_map]
    exact congrArg _ (h name)
  have htable : table { c with definitions := ds } files = c.table files := by
    simp only [table, hentries]
  rw [run, run, lines_eq, lines_eq, htable]
  rfl

/-! ### The result -/

/-- The table that the rule makes of the symbols file and the values of options that define
symbols. -/
def Ruled (files : Files) (file : Option String) (values : List String) (t : Table Unit) : Prop :=
  ∃ members, Loads files file members ∧ ∀ name, Assigned values members name (t.get? name)

/-- The report of an evaluation. -/
def Report.ofEvaluation : Except Failure (Bool × List String) → Report
  | .ok (b, consulted) => ⟨resultStatus b, String.join ((resultText b :: consulted).map line), ""⟩
  | .error f => ⟨2, "", (RunError.failure f).message⟩

namespace Command

variable {c : Command} {files : Files} {t : Table Unit} {items : List Item}

/-- The result of the expression by the rule. -/
def Results (c : Command) (files : Files) (values : List String) (result : Except Failure Bool) :
    Prop :=
  ∃ tree t, parse c.expression = .ok tree ∧ Ruled files c.file values t ∧
    (tree.evaluate t.get ⟨(), []⟩).1 = result

theorem table_eq_ok_iff_ruled (h : c.options.Gathers items) :
    c.table files = .ok t ↔ Ruled files c.file (valuesOf .symbol items) t := by
  rw [table_eq_ok_iff]
  refine exists_congr fun members => and_congr_right fun _ => ?_
  simp only [assigned_iff h.definitions]
  exact ⟨fun h name => h ▸ rfl, NameMap.ext_get?⟩

/-- With the cache and without it, the result is that of the evaluation against the table. -/
theorem evaluate_fst (ht : t.IsSteady) (tree : Chain) :
    (c.evaluate tree t).map Prod.fst = (tree.evaluate t.get ⟨(), []⟩).1 := by
  rw [evaluate]
  split
  · rw [← (Cache.evaluate_new ht () tree).1]
    rcases tree.evaluate Cache.get (.new t, ⟨(), []⟩) with ⟨result, cache, w⟩
    cases result <;> rfl
  · rcases tree.evaluate t.get ⟨(), []⟩ with ⟨result, w⟩
    cases result <;> rfl

theorem run_of_table {tree : Chain} (htree : parse c.expression = .ok tree) (hlist : c.list = false)
    (ht : c.table files = .ok t) : c.run files = .ofEvaluation (c.evaluate tree t) := by
  cases hdone : c.evaluate tree t with
  | error f => exact (Ends.failed htree hlist ht hdone).run_eq
  | ok done => exact (Ends.evaluated htree hlist ht hdone).run_eq

/-! What a run leaves, by its stages. -/

theorem run_of_unread {e : ParseError} (h : parse c.expression = .error e) :
    (c.run files).status = 2 := by
  rw [(Ends.unread h).run_eq]

theorem run_of_listed {tree : Chain} (h : parse c.expression = .ok tree) (hlist : c.list = true) :
    (c.run files).status = 0 := by
  rw [(Ends.listed h hlist).run_eq]

/-- A run that goes wrong prints nothing. -/
theorem output_of_status_eq_two (h : (c.run files).status = 2) : (c.run files).output = "" := by
  have hends := c.ends files
  generalize c.run files = r at h hends
  cases hends with
  | unread => rfl
  | listed => cases h
  | noTable => rfl
  | failed => rfl
  | evaluated => exact (resultStatus_ne_two _ h).elim

theorem run_of_not_loads (hlist : c.list = false) (h : ∀ members, ¬ Loads files c.file members) :
    (c.run files).status = 2 := by
  cases htree : parse c.expression with
  | error e => exact run_of_unread htree
  | ok tree =>
    cases ht : c.table files with
    | error e => rw [(Ends.noTable htree hlist ht).run_eq]
    | ok t =>
      obtain ⟨members, hloads, -⟩ := table_eq_ok_iff.mp ht
      exact (h members hloads).elim

section Results

variable (hc : c.options.Gathers items)
include hc

/-- The expression cannot be read, the file cannot be loaded, or there is a result. -/
theorem exists_results (files : Files) : (∃ e, parse c.expression = .error e) ∨
    (∀ members, ¬ Loads files c.file members) ∨
    ∃ result, c.Results files (valuesOf .symbol items) result := by
  cases htree : parse c.expression with
  | error e => exact .inl ⟨e, rfl⟩
  | ok tree =>
    refine .inr ?_
    cases ht : c.table files with
    | error e =>
      refine .inl fun members hloads => ?_
      cases ht.symm.trans (table_eq_ok_iff.mpr ⟨members, hloads, rfl⟩)
    | ok t => exact .inr ⟨_, tree, t, htree, (table_eq_ok_iff_ruled hc).mp ht, rfl⟩

variable (hsteady : ∀ t, c.table files = .ok t → t.IsSteady) (hlist : c.list = false)
include hsteady hlist

theorem run_of_result {b : Bool} (h : c.Results files (valuesOf .symbol items) (.ok b)) :
    (c.run files).status = resultStatus b := by
  obtain ⟨tree, t, htree, hruled, hresult⟩ := h
  have ht := (table_eq_ok_iff_ruled hc).mpr hruled
  rw [← evaluate_fst (c := c) (hsteady t ht)] at hresult
  obtain ⟨done, hdone, rfl⟩ := map_eq_ok_iff.mp hresult
  rw [run_of_table htree hlist ht, hdone]
  rfl

theorem run_of_failure {f : Failure} (h : c.Results files (valuesOf .symbol items) (.error f)) :
    (c.run files).status = 2 := by
  obtain ⟨tree, t, htree, hruled, hresult⟩ := h
  have ht := (table_eq_ok_iff_ruled hc).mpr hruled
  rw [← evaluate_fst (c := c) (hsteady t ht)] at hresult
  rw [run_of_table htree hlist ht]
  cases hdone : c.evaluate tree t with
  | error f => rfl
  | ok done =>
    rw [hdone] at hresult
    cases hresult

theorem status_eq_iff {b : Bool} : (c.run files).status = resultStatus b ↔
    c.Results files (valuesOf .symbol items) (.ok b) := by
  refine ⟨fun h => ?_, run_of_result hc hsteady hlist⟩
  rcases exists_results hc files with ⟨e, he⟩ | hloads | ⟨f | b', hresult⟩
  · exact (resultStatus_ne_two b (h.symm.trans (run_of_unread he))).elim
  · exact (resultStatus_ne_two b (h.symm.trans (run_of_not_loads hlist hloads))).elim
  · exact (resultStatus_ne_two b
      (h.symm.trans (run_of_failure hc hsteady hlist hresult))).elim
  · have hb := h.symm.trans (run_of_result hc hsteady hlist hresult)
    obtain rfl : b = b' := by revert hb; cases b <;> cases b' <;> decide
    exact hresult

/-- What goes wrong in a run that does not list the symbols. -/
theorem status_eq_two_iff : (c.run files).status = 2 ↔
    (∃ e, parse c.expression = .error e) ∨ (∀ members, ¬ Loads files c.file members) ∨
      ∃ f, c.Results files (valuesOf .symbol items) (.error f) := by
  constructor
  · intro h
    refine (exists_results hc files).imp_right (Or.imp_right ?_)
    rintro ⟨f | b, hresult⟩
    · exact ⟨f, hresult⟩
    · have hb := (run_of_result hc hsteady hlist hresult).symm.trans h
      exact (resultStatus_ne_two b hb).elim
  · rintro (⟨e, he⟩ | hloads | ⟨f, hresult⟩)
    · exact (run_of_unread he)
    · exact (run_of_not_loads hlist hloads)
    · exact (run_of_failure hc hsteady hlist hresult)

end Results

end Command

open Command

/-- Let arguments be accepted, so that they are written items that come to the command. If its
expression can be read, symbols are not only listed, and the file holds a JSON object or there is
none, then there is a table in which each name is what the last option says that defines it, or else
its last member in the file, and the run leaves what the evaluation against this table leaves. Other
arguments whose items are these in another order, with the definitions of each name in the order
that they have, are accepted and leave the same whatever the files are. The status is 0 if the
symbols are listed or the result is true, 1 if it is false, and 2 if the expression cannot be read,
the file cannot be loaded or the evaluation fails; then nothing is printed. -/
theorem run_precedence {arguments : List String} {c : Command} (h : read arguments = .ok c) :
    ∃ items, Written arguments items ∧ c.options.Gathers items ∧
      (∀ files tree members, parse c.expression = .ok tree → c.list = false →
        Loads files c.file members →
        (∃ t : Table Unit, ∀ name, Assigned (valuesOf .symbol items) members name (t.get? name)) ∧
        ∀ t : Table Unit,
          (∀ name, Assigned (valuesOf .symbol items) members name (t.get? name)) →
          c.run files = .ofEvaluation (c.evaluate tree t)) ∧
      (∀ arguments' items', Rearranges items items' → Written arguments' items' →
        ∃ c', read arguments' = .ok c' ∧ ∀ files, c'.run files = c.run files) ∧
      ∀ files,
        ((c.run files).status = 0 ↔ (c.list = true ∧ ∃ tree, parse c.expression = .ok tree) ∨
          c.list = false ∧ c.Results files (valuesOf .symbol items) (.ok true)) ∧
        ((c.run files).status = 1 ↔
          c.list = false ∧ c.Results files (valuesOf .symbol items) (.ok false)) ∧
        ((c.run files).status = 2 ↔ (∃ e, parse c.expression = .error e) ∨ c.list = false ∧
          ((∀ members, ¬ Loads files c.file members) ∨
            ∃ f, c.Results files (valuesOf .symbol items) (.error f))) ∧
        ((c.run files).status = 2 → (c.run files).output = "") := by
  obtain ⟨items, hwritten, hc⟩ := read_eq_ok_iff_written.mp h
  refine ⟨items, hwritten, hc, fun files tree members htree hlist hloads => ⟨?_, fun t ht => ?_⟩,
    fun arguments' items' hitems' hwritten' => ?_, fun files => ?_⟩
  · exact ⟨assembled members c.definitions, fun name => (assigned_iff hc.definitions).mpr rfl⟩
  · exact run_of_table htree hlist ((table_eq_ok_iff_ruled hc).mpr ⟨members, hloads, ht⟩)
  · obtain ⟨ds, hds, hsame⟩ := hc.rearrange hitems'
    exact ⟨{ c with definitions := ds }, read_eq_ok_iff_written.mpr ⟨items', hwritten', hds⟩,
      run_eq_of_filter hsame⟩
  · have hsteady : ∀ t, c.table files = .ok t → t.IsSteady := fun t ht =>
      (isData_of_table (writable_of_mem_definitions h) ht).isSteady
    rw [← and_assoc, ← and_assoc]
    refine ⟨?_, output_of_status_eq_two⟩
    cases hlist : c.list with
    | true =>
      cases htree : parse c.expression with
      | error e => simp [run_of_unread htree]
      | ok tree => simp [run_of_listed htree hlist]
    | false =>
      have hstatus := fun b => status_eq_iff hc hsteady hlist (b := b)
      have hzero : (c.run files).status = 0 ↔ c.Results files _ (.ok true) := hstatus true
      have hone : (c.run files).status = 1 ↔ c.Results files _ (.ok false) := hstatus false
      have htwo := status_eq_two_iff hc hsteady hlist
      simpa [and_assoc] using ⟨hzero, hone, htwo⟩

/-- The name is defined by two options, before the symbols file and behind it, and by the file. -/
theorem run_precedence_clash :
    let arguments := ["-s", "x=1", "-f", "p", "--symbol", " x =2", "x = 2"]
    let c : Command := ⟨[⟨"x", .integer 1⟩, ⟨"x", .integer 2⟩], some "p", false, false, "x = 2"⟩
    let files : Files := ⟨fun _ => .ok "\x7b\"x\": 3\x7d", fun _ => "expected a map"⟩
    read arguments = .ok c ∧ c.run files = ⟨0, "true\n", ""⟩ ∧
      ∃ items, Written arguments items ∧ c.options.Gathers items ∧
        c.Results files (valuesOf .symbol items) (.ok true) ∧
        ∀ arguments' items', Rearranges items items' → Written arguments' items' →
          ∃ c', read arguments' = .ok c' ∧ c'.run files = ⟨0, "true\n", ""⟩ := by
  intro arguments c files
  have hwritten : Written arguments [.option .symbol "x=1", .option .file "p",
      .option .symbol " x =2", .expression "x = 2"] := by
    refine .apart (.inl rfl) ?_ (.apart (.inl rfl) ?_ (.apart (.inr rfl) ?_
      (.one (.plain ?_) .nil))) <;> simp [IsPlain]
  have hread : read arguments = .ok c := read_eq_ok_iff_written.mpr
    ⟨_, hwritten, by decide +kernel, rfl, by decide, rfl, rfl, rfl⟩
  have hrun : c.run files = ⟨0, "true\n", ""⟩ := by decide +kernel
  obtain ⟨items, hwritten, hc, -, hother, hstatus⟩ := run_precedence hread
  obtain ⟨hzero, -⟩ := hstatus files
  refine ⟨hread, hrun, items, hwritten, hc, ?_, fun arguments' items' h hwritten' => ?_⟩
  · rcases hzero.mp (by rw [hrun]) with ⟨hlist, -⟩ | ⟨-, hresult⟩
    · cases hlist
    · exact hresult
  · obtain ⟨c', hread', hrun'⟩ := hother arguments' items' h hwritten'
    exact ⟨c', hread', (hrun' files).trans hrun⟩

end CommandLine

end FilterLang
