import Mathlib.Data.List.Sort
import Mathlib.Logic.Relation
import FilterLang.Proofs.Expr.Discovery

/-! Groups that say what the order of evaluation says already. A chain is evaluated from the left,
so a group that comes first in its chain can be spliced into it, and a group of a single item is
that item. Each such step takes one group away and leaves the inquiry of the tree as it is. So the
steps can be taken in any order, and they end in one tree, which evaluates against every source
like the tree that they began with. -/

namespace FilterLang

mutual

/-- One needless group of an item is taken away. -/
inductive Expr.Regroups : Expr → Expr → Prop
  /-- A group of a single item is that item. -/
  | single {item : Expr} : Expr.Regroups (.group (.one item)) item
  /-- Inside of a group. -/
  | group {c d : Chain} (h : Chain.Regroups c d) : Expr.Regroups (.group c) (.group d)

/-- One needless group of a chain is taken away. -/
inductive Chain.Regroups : Chain → Chain → Prop
  /-- A group at the beginning gives its items to the chain. -/
  | splice {inner : Chain} : Chain.Regroups (.one (.group inner)) inner
  /-- Inside of the first item. -/
  | first {e f : Expr} (h : Expr.Regroups e f) : Chain.Regroups (.one e) (.one f)
  /-- Before the last item. -/
  | before {c d : Chain} {k : Connective} {e : Expr} (h : Chain.Regroups c d) :
    Chain.Regroups (.join c k e) (.join d k e)
  /-- Inside of the last item. -/
  | last {c : Chain} {k : Connective} {e f : Expr} (h : Expr.Regroups e f) :
    Chain.Regroups (.join c k e) (.join c k f)

end

/-- The chain that an item is at the beginning of another. -/
def Expr.contents : Expr → Chain
  | .comparison c => .one (.comparison c)
  | .group inner => inner

/-- The item that a chain is within another. -/
def Chain.asItem : Chain → Expr
  | .one item => item
  | .join before k item => .group (.join before k item)

mutual

/-- The item without needless groups. -/
def Expr.regroup : Expr → Expr
  | .comparison c => .comparison c
  | .group inner => inner.regroup.asItem

/-- The chain without needless groups. -/
def Chain.regroup : Chain → Chain
  | .one item => item.regroup.contents
  | .join before k item => .join before.regroup k item.regroup

end

mutual

/-- No group of the item is needless. -/
def Expr.IsTight : Expr → Prop
  | .comparison _ => True
  | .group inner => inner.IsTight ∧ ∀ item, inner ≠ .one item

/-- No group of the chain is needless. -/
def Chain.IsTight : Chain → Prop
  | .one item => item.IsTight ∧ ∀ inner, item ≠ .group inner
  | .join before _ item => before.IsTight ∧ item.IsTight

end

/-! ### What a step does -/

mutual

theorem Expr.Regroups.inquiry_eq : {e f : Expr} → e.Regroups f → f.inquiry = e.inquiry
  | _, _, .single => rfl
  | _, _, .group h => by
    rw [Expr.inquiry, Expr.inquiry, h.inquiry_eq]

/-- A step does not change what an evaluation asks for, and what it does with the answers. -/
theorem Chain.Regroups.inquiry_eq : {c d : Chain} → c.Regroups d → d.inquiry = c.inquiry
  | _, _, .splice => rfl
  | _, _, .first h => h.inquiry_eq
  | _, _, .before h => by
    rw [Chain.inquiry, Chain.inquiry, h.inquiry_eq]
  | _, _, .last h => by
    rw [Chain.inquiry, Chain.inquiry, h.inquiry_eq]

end

mutual

theorem Expr.Regroups.comparisons_eq :
    {e f : Expr} → e.Regroups f → f.comparisons = e.comparisons
  | _, _, .single => rfl
  | _, _, .group h => h.comparisons_eq

/-- A step leaves the comparisons in their order. -/
theorem Chain.Regroups.comparisons_eq :
    {c d : Chain} → c.Regroups d → d.comparisons = c.comparisons
  | _, _, .splice => rfl
  | _, _, .first h => h.comparisons_eq
  | _, _, .before h => by
    rw [Chain.comparisons, Chain.comparisons, h.comparisons_eq]
  | _, _, .last h => by
    rw [Chain.comparisons, Chain.comparisons, h.comparisons_eq]

end

mutual

theorem Expr.Regroups.groupCount_eq : {e f : Expr} → e.Regroups f →
    e.groupCount = f.groupCount + 1
  | _, _, .single => rfl
  | _, _, .group h => by
    rw [Expr.groupCount, Expr.groupCount, h.groupCount_eq]

/-- A step takes one group away, so that there are only so many of them. -/
theorem Chain.Regroups.groupCount_eq : {c d : Chain} → c.Regroups d →
    c.groupCount = d.groupCount + 1
  | _, _, .splice => rfl
  | _, _, .first h => h.groupCount_eq
  | _, _, .before h => by
    rw [Chain.groupCount, Chain.groupCount, h.groupCount_eq]
    omega
  | _, _, .last h => by
    rw [Chain.groupCount, Chain.groupCount, h.groupCount_eq]
    omega

end

theorem Chain.wellFounded_regroups : WellFounded fun d c : Chain => c.Regroups d := by
  refine Subrelation.wf (fun {d c} h => ?_) (measure Chain.groupCount).wf
  show d.groupCount < c.groupCount
  rw [h.groupCount_eq]
  exact Nat.lt_succ_self _

/-! ### Trees without needless groups -/

mutual

theorem Expr.Regroups.not_isTight : {e f : Expr} → e.Regroups f → ¬e.IsTight
  | _, _, .single => fun h => h.2 _ rfl
  | _, _, .group h => fun htight => h.not_isTight htight.1

/-- Where no group is needless, no step is left. -/
theorem Chain.Regroups.not_isTight : {c d : Chain} → c.Regroups d → ¬c.IsTight
  | _, _, .splice => fun h => h.2 _ rfl
  | _, _, .first h => fun htight => h.not_isTight htight.1
  | _, _, .before h => fun htight => h.not_isTight htight.1
  | _, _, .last h => fun htight => h.not_isTight htight.2

end

theorem Expr.IsTight.contents {e : Expr} (h : e.IsTight) : e.contents.IsTight := by
  cases e with
  | comparison c => exact ⟨trivial, by simp⟩
  | group inner => exact h.1

theorem Chain.IsTight.asItem {c : Chain} (h : c.IsTight) : c.asItem.IsTight := by
  cases c with
  | one item => exact h.1
  | join before k item => exact ⟨h, by simp⟩

mutual

theorem Expr.isTight_regroup : (e : Expr) → e.regroup.IsTight
  | .comparison _ => trivial
  | .group inner => (Chain.isTight_regroup inner).asItem

theorem Chain.isTight_regroup : (c : Chain) → c.regroup.IsTight
  | .one item => (Expr.isTight_regroup item).contents
  | .join before _ item => ⟨Chain.isTight_regroup before, Expr.isTight_regroup item⟩

end

theorem Expr.IsTight.asItem_contents {e : Expr} (h : e.IsTight) : e.contents.asItem = e := by
  cases e with
  | comparison c => rfl
  | group inner =>
    cases inner with
    | one item => exact absurd rfl (h.2 item)
    | join before k item => rfl

theorem Chain.IsTight.contents_asItem {c : Chain} (h : c.IsTight) : c.asItem.contents = c := by
  cases c with
  | one item =>
    cases item with
    | comparison d => rfl
    | group inner => exact absurd rfl (h.2 inner)
  | join before k item => rfl

/-! ### Steps end in one tree -/

theorem Expr.regroups_contents (e : Expr) :
    Relation.ReflTransGen Chain.Regroups (.one e) e.contents := by
  cases e with
  | comparison c => exact .refl
  | group inner => exact .single .splice

theorem Chain.regroups_asItem (c : Chain) :
    Relation.ReflTransGen Expr.Regroups (.group c) c.asItem := by
  cases c with
  | one item => exact .single .single
  | join before k item => exact .refl

mutual

theorem Expr.regroups_regroup : (e : Expr) → Relation.ReflTransGen Expr.Regroups e e.regroup
  | .comparison _ => .refl
  | .group inner =>
    have hinner : Relation.ReflTransGen Expr.Regroups (.group inner) (.group inner.regroup) :=
      (Chain.regroups_regroup inner).lift _ fun _ _ => .group
    hinner.trans inner.regroup.regroups_asItem

/-- Steps lead to the tree without needless groups. -/
theorem Chain.regroups_regroup : (c : Chain) → Relation.ReflTransGen Chain.Regroups c c.regroup
  | .one item =>
    have hitem : Relation.ReflTransGen Chain.Regroups (.one item) (.one item.regroup) :=
      (Expr.regroups_regroup item).lift _ fun _ _ => .first
    hitem.trans item.regroup.regroups_contents
  | .join before k item =>
    have hbefore : Relation.ReflTransGen Chain.Regroups (.join before k item)
        (.join before.regroup k item) :=
      (Chain.regroups_regroup before).lift (Chain.join · k item) fun _ _ => .before
    have hitem : Relation.ReflTransGen Chain.Regroups (.join before.regroup k item)
        (.join before.regroup k item.regroup) :=
      (Expr.regroups_regroup item).lift (Chain.join before.regroup k) fun _ _ => .last
    hbefore.trans hitem

end

mutual

theorem Expr.Regroups.regroup_eq : {e f : Expr} → e.Regroups f → f.regroup = e.regroup
  | _, _, @Expr.Regroups.single item => item.isTight_regroup.asItem_contents.symm
  | _, _, .group h => by
    rw [Expr.regroup, Expr.regroup, h.regroup_eq]

/-- A step does not change the tree that the steps end in. -/
theorem Chain.Regroups.regroup_eq : {c d : Chain} → c.Regroups d → d.regroup = c.regroup
  | _, _, @Chain.Regroups.splice inner => inner.isTight_regroup.contents_asItem.symm
  | _, _, .first h => by
    rw [Chain.regroup, Chain.regroup, h.regroup_eq]
  | _, _, .before h => by
    rw [Chain.regroup, Chain.regroup, h.regroup_eq]
  | _, _, .last h => by
    rw [Chain.regroup, Chain.regroup, h.regroup_eq]

end

/-- What each step keeps, a number of steps keeps. -/
theorem Chain.eq_of_regroups {α : Type} {f : Chain → α}
    (hstep : ∀ {c d : Chain}, c.Regroups d → f d = f c) {c d : Chain}
    (h : Relation.ReflTransGen Chain.Regroups c d) : f d = f c := by
  induction h with
  | refl => rfl
  | tail _ step ih => rw [hstep step, ih]

/-- Where no step is left, the tree is the one without needless groups. -/
theorem Chain.eq_regroup_of_done {c d : Chain} (h : Relation.ReflTransGen Chain.Regroups c d)
    (hdone : ∀ e, ¬d.Regroups e) : d = c.regroup := by
  rw [← Chain.eq_of_regroups Chain.Regroups.regroup_eq h]
  rcases d.regroups_regroup.cases_head with heq | ⟨e, step, -⟩
  · exact heq
  · exact absurd step (hdone e)

/-- The symbols are determined by the names in the comparisons. -/
theorem Chain.symbols_congr {c d : Chain} (h : ∀ name, name ∈ c.names ↔ name ∈ d.names) :
    c.symbols = d.symbols := by
  refine List.Pairwise.eq_of_mem_iff (r := (· < ·)) ?_ ?_ fun name => ?_
  · exact (Search.finish ⟨[c], .empty⟩).ascending
  · exact (Search.finish ⟨[d], .empty⟩).ascending
  · rw [Chain.mem_symbols, Chain.mem_symbols, h]

/-- However needless groups are taken away, this ends, and it ends in the same tree, which is left
without any. On the way, against every source and from each of its states, the evaluation has the
same result, leaves the same state and makes the same requests with the same answers, and the
symbols stay the same. -/
theorem Chain.evaluate_regroup (c : Chain) :
    Acc (fun e d : Chain => d.Regroups e) c ∧
    Relation.ReflTransGen Chain.Regroups c c.regroup ∧ (∀ e, ¬c.regroup.Regroups e) ∧
    (∀ d, Relation.ReflTransGen Chain.Regroups c d → (∀ e, ¬d.Regroups e) →
      d = c.regroup) ∧
    ∀ d, Relation.ReflTransGen Chain.Regroups c d →
      (∀ {τ : Type} (source : Source τ) (s : τ), d.evaluate source s = c.evaluate source s ∧
        d.exchanges source s = c.exchanges source s) ∧
      d.symbols = c.symbols := by
  refine ⟨?_, c.regroups_regroup, fun e h => h.not_isTight c.isTight_regroup,
    fun d => Chain.eq_regroup_of_done, fun d h => ⟨fun source s => ⟨?_, ?_⟩, ?_⟩⟩
  · exact Chain.wellFounded_regroups.apply c
  · rw [← d.run_inquiry, ← c.run_inquiry, Chain.eq_of_regroups Chain.Regroups.inquiry_eq h]
  · rw [d.exchanges_eq, c.exchanges_eq, Chain.eq_of_regroups Chain.Regroups.inquiry_eq h]
  · refine Chain.symbols_congr fun name => ?_
    rw [Chain.names, Chain.names, Chain.eq_of_regroups Chain.Regroups.comparisons_eq h]

/-- `((x = 1 or y = 2)) and (z = 3)` is `x = 1 or y = 2 and z = 3`. -/
example :
    let test (name : String) (n : Int64) : Expr :=
      .comparison ⟨.symbol name, .equal, .literal (.integer n)⟩
    let either : Chain := .join (.one (test "x" 1)) .or (test "y" 2)
    Chain.regroup (.join (.one (.group (.one (.group either)))) .and (.group (.one (test "z" 3)))) =
      .join either .and (test "z" 3) := rfl

end FilterLang
