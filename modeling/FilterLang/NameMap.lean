/-! Finite maps from names, kept as a list in strictly increasing order of the names. The order is
part of the type, so a map is determined by its entries, and listing them needs no sorting. -/

namespace FilterLang

/-- Names in the order of their code points. -/
def Ascending (names : List String) : Prop := names.Pairwise (· < ·)

/-- A finite map from names to values. -/
structure NameMap (α : Type) where
  entries : List (String × α)
  ascending : Ascending (entries.map Prod.fst)

namespace NameMap

variable {α : Type}

/-- Adds an entry in its place, or replaces the one with its name. -/
def put (name : String) (value : α) : List (String × α) → List (String × α)
  | [] => [(name, value)]
  | (n, v) :: rest =>
    if name < n then (name, value) :: (n, v) :: rest
    else if name = n then (name, value) :: rest
    else (n, v) :: put name value rest

/-- The value of the first entry with a name. -/
def find? (name : String) : List (String × α) → Option α
  | [] => none
  | (n, v) :: rest => if name = n then some v else find? name rest

/-- Removes the entries with a name. -/
def drop (name : String) (entries : List (String × α)) : List (String × α) :=
  entries.filter fun e => e.1 ≠ name

theorem mem_names_put {name n : String} {value : α} {es : List (String × α)}
    (h : n ∈ (put name value es).map Prod.fst) : n = name ∨ n ∈ es.map Prod.fst := by
  induction es with
  | nil => simpa [put] using h
  | cons e rest ih =>
    obtain ⟨m, v⟩ := e
    rw [put] at h
    split at h
    · simpa using h
    · split at h
      next heq => subst heq; simpa [or_assoc] using h
      next =>
        rcases List.mem_cons.1 h with rfl | h
        · simp
        · rcases ih h with rfl | h
          · simp
          · simp only [List.map_cons, List.mem_cons]
            exact .inr (.inr h)

theorem lt_of_not_lt {a b : String} (h : ¬a < b) (hne : a ≠ b) : b < a :=
  Std.lt_of_le_of_ne (Std.not_lt.1 h) (Ne.symm hne)

theorem ascending_put {name : String} {value : α} {es : List (String × α)}
    (h : Ascending (es.map Prod.fst)) : Ascending ((put name value es).map Prod.fst) := by
  induction es with
  | nil => simp [put, Ascending]
  | cons e rest ih =>
    obtain ⟨m, v⟩ := e
    obtain ⟨hm, hrest⟩ := List.pairwise_cons.1 h
    rw [put]
    split
    next hlt =>
      exact List.pairwise_cons.2 ⟨fun n hn => (List.mem_cons.1 hn).elim (· ▸ hlt)
        fun hn => Std.lt_trans hlt (hm n hn), h⟩
    next hlt =>
      split
      next heq => subst heq; exact h
      next hne =>
        refine List.pairwise_cons.2 ⟨fun n hn => ?_, ih hrest⟩
        rcases mem_names_put hn with rfl | hn
        · exact lt_of_not_lt hlt hne
        · exact hm n hn

theorem ascending_drop {name : String} {es : List (String × α)}
    (h : Ascending (es.map Prod.fst)) : Ascending ((drop name es).map Prod.fst) :=
  h.sublist (List.filter_sublist.map _)

/-- The map without entries. -/
def empty : NameMap α := ⟨[], .nil⟩

/-- The value of a name. -/
def get? (m : NameMap α) (name : String) : Option α := find? name m.entries

/-- Adds or replaces the value of a name. -/
def insert (m : NameMap α) (name : String) (value : α) : NameMap α :=
  ⟨put name value m.entries, ascending_put m.ascending⟩

/-- Removes a name. -/
def erase (m : NameMap α) (name : String) : NameMap α :=
  ⟨drop name m.entries, ascending_drop m.ascending⟩

/-- Changes every value. -/
def map {β : Type} (f : α → β) (m : NameMap α) : NameMap β :=
  ⟨m.entries.map fun e => (e.1, f e.2), by
    rw [List.map_map]
    exact m.ascending⟩

/-- Has the name a value? -/
def contains (m : NameMap α) (name : String) : Bool := (m.get? name).isSome

/-- How many names have a value. -/
def size (m : NameMap α) : Nat := m.entries.length

/-- The names that have a value, in order. -/
def names (m : NameMap α) : List String := m.entries.map Prod.fst

/-- Adds entries one after the other, so that the last one for a name stays. -/
def insertAll (m : NameMap α) (entries : List (String × α)) : NameMap α :=
  entries.foldl (fun m e => m.insert e.1 e.2) m

/-- The map with the given entries; the last one for a name stays. -/
def ofList (entries : List (String × α)) : NameMap α := empty.insertAll entries

@[simp] theorem get?_empty (name : String) : (empty : NameMap α).get? name = none := rfl

theorem find?_put (name other : String) (value : α) (es : List (String × α)) :
    find? other (put name value es) = if other = name then some value else find? other es := by
  induction es with
  | nil => simp [put, find?]
  | cons e rest ih =>
    obtain ⟨n, v⟩ := e
    rw [put]
    split
    · rw [find?]
    · split
      next h => subst h; simp only [find?]; split <;> rfl
      next h =>
        simp only [find?, ih]
        split
        next h' => subst h'; simp [Ne.symm h]
        next => rfl

@[simp] theorem get?_insert (m : NameMap α) (name other : String) (value : α) :
    (m.insert name value).get? other = if other = name then some value else m.get? other :=
  find?_put name other value m.entries

theorem put_put (name : String) (value latest : α) (es : List (String × α)) :
    put name latest (put name value es) = put name latest es := by
  induction es with
  | nil => simp [put]
  | cons e rest ih =>
    obtain ⟨n, v⟩ := e
    by_cases hlt : name < n
    · simp [put, hlt]
    · by_cases heq : name = n
      · simp [put, heq]
      · simp only [put, hlt, heq, ↓reduceIte, ih]

@[simp] theorem insert_insert (m : NameMap α) (name : String) (value latest : α) :
    (m.insert name value).insert name latest = m.insert name latest := by
  unfold insert
  simp only [put_put]

theorem mem_names_of_find? {name : String} {value : α} {es : List (String × α)}
    (h : find? name es = some value) : name ∈ es.map Prod.fst := by
  induction es with
  | nil => cases h
  | cons e rest ih =>
    rw [find?] at h
    split at h
    next heq => exact heq ▸ List.mem_cons_self
    next => exact List.mem_cons_of_mem _ (ih h)

theorem put_of_find? {name : String} {value : α} {es : List (String × α)}
    (hes : Ascending (es.map Prod.fst)) (h : find? name es = some value) :
    put name value es = es := by
  induction es with
  | nil => cases h
  | cons e rest ih =>
    obtain ⟨n, v⟩ := e
    obtain ⟨hn, hrest⟩ := List.pairwise_cons.1 hes
    rw [find?] at h
    split at h
    next heq =>
      subst heq
      cases h
      simp [put]
    next hne =>
      have hlt : n < name := hn name (mem_names_of_find? h)
      rw [put, if_neg (Std.not_lt.2 (Std.le_of_lt hlt)), if_neg hne, ih hrest h]

/-- Putting in what is there changes nothing. -/
theorem insert_of_get? {m : NameMap α} {name : String} {value : α} (h : m.get? name = some value) :
    m.insert name value = m := by
  unfold insert
  simp only [put_of_find? m.ascending h]

theorem mem_names_iff_find? {name : String} {es : List (String × α)} :
    name ∈ es.map Prod.fst ↔ (find? name es).isSome := by
  induction es with
  | nil => simp [find?]
  | cons e rest ih =>
    rw [find?, List.map_cons, List.mem_cons, ih]
    split
    next heq => simp [heq]
    next hne => simp [hne]

/-- The names of a map are those that have a value. -/
theorem mem_names_iff {m : NameMap α} {name : String} :
    name ∈ m.names ↔ (m.get? name).isSome :=
  mem_names_iff_find?

theorem find?_drop (name other : String) (es : List (String × α)) :
    find? other (drop name es) = if other = name then none else find? other es := by
  induction es with
  | nil => simp [drop, find?]
  | cons e rest ih =>
    obtain ⟨n, v⟩ := e
    rw [drop] at ih
    by_cases hn : n = name
    · subst hn
      simp only [drop, ne_eq, not_true_eq_false, decide_false, Bool.false_eq_true,
        not_false_eq_true, List.filter_cons_of_neg, find?, ih]
      split <;> rfl
    · simp only [drop, ne_eq, hn, not_false_eq_true, decide_true, List.filter_cons_of_pos, find?,
        ih]
      split
      next h => subst h; simp [hn]
      next => rfl

@[simp] theorem get?_erase (m : NameMap α) (name other : String) :
    (m.erase name).get? other = if other = name then none else m.get? other :=
  find?_drop name other m.entries

theorem find?_map {β : Type} (f : α → β) (name : String) (es : List (String × α)) :
    find? name (es.map fun e => (e.1, f e.2)) = (find? name es).map f := by
  induction es with
  | nil => rfl
  | cons e rest ih =>
    simp only [List.map_cons, find?]
    split
    · rfl
    · exact ih

@[simp] theorem get?_map {β : Type} (f : α → β) (m : NameMap α) (name : String) :
    (m.map f).get? name = (m.get? name).map f :=
  find?_map f name m.entries

end NameMap

end FilterLang
