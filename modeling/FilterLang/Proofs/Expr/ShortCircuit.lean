import FilterLang.Expr.Evaluate
import FilterLang.Proofs.Expr.Spelling

/-! Passing over items does not change results. The strict value of a tree is folded from left to
right over the truths of all its comparisons, with nothing passed over. The comparisons are told
apart by their places, so that equal ones that fail can be given different truths. If the source
answers the same at every request, evaluation gives the strict value for every choice of the
truths of comparisons that fail, since such a comparison is passed over or makes the whole
evaluation fail. -/

namespace FilterLang

/-- A connective of two truths. -/
def Connective.combine : Connective → Bool → Bool → Bool
  | .and, a, b => a && b
  | .or, a, b => a || b

theorem Connective.combine_decisive (k : Connective) (b : Bool) :
    k.combine k.decisive b = k.decisive := by
  cases k <;> rfl

theorem Connective.combine_of_ne {k : Connective} {a : Bool} (h : a ≠ k.decisive) (b : Bool) :
    k.combine a b = b := by
  cases k <;> cases a <;> simp_all [combine, decisive]

mutual

/-- The strict value of an item whose comparisons have their truths from the place `first` on. -/
def Expr.strict (truth : Nat → Bool) (first : Nat) : Expr → Bool
  | .comparison _ => truth first
  | .group inner => inner.strict truth first

/-- The strict value of a chain whose comparisons have their truths from the place `first` on. -/
def Chain.strict (truth : Nat → Bool) (first : Nat) : Chain → Bool
  | .one item => item.strict truth first
  | .join before connective item =>
    connective.combine (before.strict truth first)
      (item.strict truth (first + before.comparisons.length))

end

variable {τ : Type}

/-- The source answers a name in the same way at every request. -/
def Source.IsSteady (source : Source τ) : Prop :=
  ∀ name s s', (source name s).1 = (source name s').1

/-- The truths from the place `first` on are those of the comparisons, where they have one. -/
def Agrees (source : Source τ) (s : τ) (truth : Nat → Bool) (first : Nat)
    (cs : List Comparison) : Prop :=
  ∀ i c b, cs[i]? = some c → (c.evaluate source s).1 = .ok b → truth (first + i) = b

section Steady

variable {source : Source τ} {truth : Nat → Bool} {first : Nat} {b : Bool} {s s' : τ}

theorem agrees_append {cs ds : List Comparison} :
    Agrees source s truth first (cs ++ ds) ↔
      Agrees source s truth first cs ∧ Agrees source s truth (first + cs.length) ds := by
  constructor
  · intro h
    refine ⟨fun i c b hc hb => ?_, fun i c b hc hb => ?_⟩
    · have hlt : i < cs.length := (List.getElem?_eq_some_iff.mp hc).1
      exact h i c b (by rw [List.getElem?_append_left hlt, hc]) hb
    · have hget : (cs ++ ds)[cs.length + i]? = some c := by
        rw [List.getElem?_append_right (by omega), Nat.add_sub_cancel_left, hc]
      have htruth := h (cs.length + i) c b hget hb
      rwa [← Nat.add_assoc] at htruth
  · rintro ⟨hcs, hds⟩ i c b hc hb
    by_cases hlt : i < cs.length
    · rw [List.getElem?_append_left hlt] at hc
      exact hcs i c b hc hb
    · rw [List.getElem?_append_right (by omega)] at hc
      have htruth := hds _ c b hc hb
      rwa [show first + cs.length + (i - cs.length) = first + i by omega] at htruth

theorem Operand.resolve_steady (h : source.IsSteady) (o : Operand) (s s' : τ) :
    (o.resolve source s).1 = (o.resolve source s').1 := by
  cases o with
  | literal v => rfl
  | symbol name => exact h name s s'

/-- The result of a comparison from the answers for its sides. -/
theorem Comparison.evaluate_fst (c : Comparison) :
    (c.evaluate source s).1 =
      match (c.left.resolve source s).1,
        (c.right.resolve source (c.left.resolve source s).2).1 with
      | .error f, _ => .error f
      | .ok _, .error f => .error f
      | .ok left, .ok right => (c.relation.compare left right).mapError .error := by
  unfold Comparison.evaluate
  obtain ⟨left, t⟩ := c.left.resolve source s
  cases left with
  | error f => rfl
  | ok left =>
    simp only
    obtain ⟨right, u⟩ := c.right.resolve source t
    cases right <;> rfl

/-- A comparison has the same result in every state. -/
theorem Comparison.evaluate_steady (h : source.IsSteady) (c : Comparison) :
    (c.evaluate source s).1 = (c.evaluate source s').1 := by
  rw [c.evaluate_fst, c.evaluate_fst, c.left.resolve_steady h s s',
    c.right.resolve_steady h _ (c.left.resolve source s').2]

/-- A chain that goes on has the result of the shorter one if that decides the connective, and of
the item otherwise. -/
theorem Chain.evaluate_join_eq_ok_iff {before : Chain} {k : Connective} {item : Expr} :
    ((Chain.join before k item).evaluate source s).1 = .ok b ↔
      ((before.evaluate source s).1 = .ok k.decisive ∧ b = k.decisive) ∨
      ∃ a, (before.evaluate source s).1 = .ok a ∧ a ≠ k.decisive ∧
        (item.evaluate source (before.evaluate source s).2).1 = .ok b := by
  rw [Chain.evaluate]
  obtain ⟨result, t⟩ := before.evaluate source s
  cases result with
  | error f => simp
  | ok a =>
    by_cases ha : a = k.decisive
    · simp [ha, eq_comm]
    · simp [ha]

mutual

theorem Expr.strict_eq_of_evaluate (hs : source.IsSteady) (t : τ) (first : Nat) (b : Bool) :
    (e : Expr) → Agrees source s truth first e.comparisons →
      (e.evaluate source t).1 = .ok b → e.strict truth first = b
  | .comparison c, hagree, h => hagree 0 c b rfl (by rwa [c.evaluate_steady hs])
  | .group inner, hagree, h => Chain.strict_eq_of_evaluate hs t first b inner hagree h

/-- A result of a chain is its strict value. -/
theorem Chain.strict_eq_of_evaluate (hs : source.IsSteady) (t : τ) (first : Nat) (b : Bool) :
    (c : Chain) → Agrees source s truth first c.comparisons →
      (c.evaluate source t).1 = .ok b → c.strict truth first = b
  | .one item, hagree, h => Expr.strict_eq_of_evaluate hs t first b item hagree h
  | .join before k item, hagree, h => by
    obtain ⟨hbefore, hitem⟩ := agrees_append.mp hagree
    rw [Chain.strict]
    rcases Chain.evaluate_join_eq_ok_iff.mp h with ⟨hdecided, rfl⟩ | ⟨a, ha, hne, hb⟩
    · -- The item is passed over, whatever its strict value is.
      rw [Chain.strict_eq_of_evaluate hs t first _ before hbefore hdecided]
      exact k.combine_decisive _
    · rw [Chain.strict_eq_of_evaluate hs t first a before hbefore ha,
        Connective.combine_of_ne hne]
      exact Expr.strict_eq_of_evaluate hs _ _ b item hitem hb

end

mutual

theorem Expr.exists_evaluate_eq_ok (hs : source.IsSteady) (t : τ) :
    (e : Expr) → (∀ c ∈ e.comparisons, ∃ b, (c.evaluate source s).1 = .ok b) →
      ∃ b, (e.evaluate source t).1 = .ok b
  | .comparison c, h => by
    obtain ⟨b, hb⟩ := h c (List.mem_singleton.mpr rfl)
    exact ⟨b, by rwa [Expr.evaluate, c.evaluate_steady hs]⟩
  | .group inner, h => Chain.exists_evaluate_eq_ok hs t inner h

/-- A chain fails only if one of its comparisons does. -/
theorem Chain.exists_evaluate_eq_ok (hs : source.IsSteady) (t : τ) :
    (c : Chain) → (∀ d ∈ c.comparisons, ∃ b, (d.evaluate source s).1 = .ok b) →
      ∃ b, (c.evaluate source t).1 = .ok b
  | .one item, h => Expr.exists_evaluate_eq_ok hs t item h
  | .join before k item, h => by
    obtain ⟨a, ha⟩ := Chain.exists_evaluate_eq_ok hs t before fun d hd =>
      h d (List.mem_append_left _ hd)
    obtain ⟨b, hb⟩ := Expr.exists_evaluate_eq_ok hs (before.evaluate source t).2 item fun d hd =>
      h d (List.mem_append_right _ hd)
    by_cases hdecided : a = k.decisive
    · subst hdecided
      exact ⟨_, Chain.evaluate_join_eq_ok_iff.mpr (.inl ⟨ha, rfl⟩)⟩
    · exact ⟨b, Chain.evaluate_join_eq_ok_iff.mpr (.inr ⟨a, ha, hdecided, hb⟩)⟩

end

end Steady

/-- With a steady source, a result is the strict value of the tree whatever truths are chosen for
the comparisons that fail, and if no comparison fails, the strict value is the result. -/
theorem Chain.evaluate_eq_strict {source : Source τ} (hs : source.IsSteady) (c : Chain) (s : τ) :
    (∀ b truth, (c.evaluate source s).1 = .ok b → Agrees source s truth 0 c.comparisons →
      c.strict truth 0 = b) ∧
    ∀ truth : Nat → Bool,
      (∀ i (d : Comparison), c.comparisons[i]? = some d → (d.evaluate source s).1 = .ok (truth i)) →
      (c.evaluate source s).1 = .ok (c.strict truth 0) := by
  have hsound : ∀ b truth, (c.evaluate source s).1 = .ok b →
      Agrees source s truth 0 c.comparisons → c.strict truth 0 = b :=
    fun b truth h hagree => Chain.strict_eq_of_evaluate hs s 0 b c hagree h
  refine ⟨hsound, fun truth htruth => ?_⟩
  have hagree : Agrees source s truth 0 c.comparisons := by
    intro i d b hd hb
    rw [Nat.zero_add]
    exact Except.ok.inj ((htruth i d hd).symm.trans hb)
  obtain ⟨b, hb⟩ := Chain.exists_evaluate_eq_ok hs s c fun d hd => by
    obtain ⟨i, hi⟩ := List.mem_iff_getElem?.mp hd
    exact ⟨truth i, htruth i d hi⟩
  rw [hsound b truth hb hagree, hb]

/-- A source that knows `x` only. -/
def onlyX : Source Unit := fun name s =>
  (if name = "x" then .ok (.integer 2) else .error (.error (.unknownSymbol name)), s)

/-- The item with the unknown name is passed over in `x = 1 and y = 1 or x = 2`. -/
theorem Chain.evaluate_eq_strict_passing_over :
    let x (n : Int64) : Expr := .comparison ⟨.symbol "x", .equal, .literal (.integer n)⟩
    let y : Expr := .comparison ⟨.symbol "y", .equal, .literal (.integer 1)⟩
    let c : Chain := .join (.join (.one (x 1)) .and y) .or (x 2)
    onlyX.IsSteady ∧ (c.evaluate onlyX ()).1 = .ok true ∧
      ∀ truth, Agrees onlyX () truth 0 c.comparisons → c.strict truth 0 = true := by
  intro x y c
  have hs : onlyX.IsSteady := fun _ _ _ => rfl
  have hok : (c.evaluate onlyX ()).1 = .ok true := rfl
  exact ⟨hs, hok, fun truth => (Chain.evaluate_eq_strict hs c ()).1 true truth hok⟩

end FilterLang
