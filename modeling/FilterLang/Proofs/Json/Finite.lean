import FilterLang.Json.Text

/-! No number that is read from JSON text is infinite or NaN: a numeral whose value is too large is
refused, and there is no other way to write one. The readers of values, items and members call each
other with less and less fuel; the induction is on the fuel, for all three at once. -/

namespace FilterLang.Json

/-- Every number in the value is finite, also inside of arrays and objects. -/
inductive IsFinite : Json → Prop
  | null : IsFinite .null
  | boolean {b : Bool} : IsFinite (.boolean b)
  | integer {n : Int64} : IsFinite (.number (.integer n))
  | real {negative : Bool} {m : Magnitude} : IsFinite (.number (.real (.finite negative m)))
  | text {s : String} : IsFinite (.text s)
  | array {items : List Json} (h : ∀ j ∈ items, IsFinite j) : IsFinite (.array items)
  | object {members : List (String × Json)} (h : ∀ m ∈ members, IsFinite m.2) :
    IsFinite (.object members)

variable {fuel room : Nat} {cs rest : List Char} {j : Json}

theorem isFinite_of_number? (h : number? cs = some (j, rest)) : j.IsFinite := by
  obtain ⟨⟨n, more⟩, -, hvalue⟩ := Option.bind_eq_some_iff.mp h
  obtain ⟨v, hv, hj⟩ := Option.map_eq_some_iff.mp hvalue
  obtain ⟨rfl, -⟩ := Prod.mk.inj hj
  rw [Numeral.value?] at hv
  split at hv
  next i _ =>
    obtain rfl := Option.some.inj hv
    exact .integer
  next =>
    obtain ⟨x, hx, rfl⟩ := Option.map_eq_some_iff.mp hv
    obtain ⟨m, -, rfl⟩ := Option.map_eq_some_iff.mp hx
    exact .real

/-- What the three readers give with some fuel. -/
structure ReadsFinite (fuel : Nat) : Prop where
  value : ∀ {room cs j rest}, value? fuel room cs = some (j, rest) → j.IsFinite
  items : ∀ {room done cs j rest}, (∀ d ∈ done, IsFinite d) →
    items? fuel room done cs = some (j, rest) → j.IsFinite
  members : ∀ {room done cs j rest}, (∀ m ∈ done, IsFinite m.2) →
    members? fuel room done cs = some (j, rest) → j.IsFinite

theorem ReadsFinite.value_succ (ih : ReadsFinite fuel)
    (h : value? (fuel + 1) room cs = some (j, rest)) : j.IsFinite := by
  rw [value?] at h
  split at h
  · cases h; exact .null
  · cases h; exact .boolean
  · cases h; exact .boolean
  · obtain ⟨⟨s, more⟩, -, hj⟩ := Option.map_eq_some_iff.mp h
    cases hj
    exact .text
  · split at h
    · cases h
    · split at h
      · cases h; exact .array (by simp)
      · exact ih.items (by simp) h
  · split at h
    · cases h
    · split at h
      · cases h; exact .object (by simp)
      · exact ih.members (by simp) h
  · exact isFinite_of_number? h

theorem ReadsFinite.items_succ (ih : ReadsFinite fuel) {done : List Json}
    (hdone : ∀ d ∈ done, d.IsFinite) (h : items? (fuel + 1) room done cs = some (j, rest)) :
    j.IsFinite := by
  rw [items?] at h
  split at h
  · cases h
  next v more hv =>
    have hall : ∀ d ∈ v :: done, d.IsFinite := List.forall_mem_cons.mpr ⟨ih.value hv, hdone⟩
    split at h
    · exact ih.items hall h
    · cases h
      exact .array fun d hd => hall d (List.mem_reverse.mp hd)
    · cases h

theorem ReadsFinite.members_succ (ih : ReadsFinite fuel) {done : List (String × Json)}
    (hdone : ∀ m ∈ done, m.2.IsFinite) (h : members? (fuel + 1) room done cs = some (j, rest)) :
    j.IsFinite := by
  rw [members?] at h
  split at h
  next =>
    split at h
    · cases h
    next name more _ =>
      split at h
      next =>
        split at h
        · cases h
        next v more hv =>
          have hall : ∀ m ∈ (name, v) :: done, m.2.IsFinite :=
            List.forall_mem_cons.mpr ⟨ih.value hv, hdone⟩
          split at h
          · exact ih.members hall h
          · cases h
            exact .object fun m hm => hall m (List.mem_reverse.mp hm)
          · cases h
      · cases h
  · cases h

theorem readsFinite (fuel : Nat) : ReadsFinite fuel := by
  induction fuel with
  | zero => exact ⟨nofun, nofun, nofun⟩
  | succ fuel ih => exact ⟨ih.value_succ, ih.items_succ, ih.members_succ⟩

theorem isFinite_of_read? {text : String} (h : read? text = some j) : j.IsFinite := by
  rw [read?] at h
  split at h
  next v more hv =>
    split at h
    · cases h
      exact (readsFinite _).value hv
    · cases h
  · cases h

end FilterLang.Json
