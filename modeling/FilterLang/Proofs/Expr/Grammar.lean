import FilterLang.Proofs.Expr.Reader

/-! Reading accepts exactly the token sequences that spell a tree within the depth limit, and it
gives that tree. That nothing else is accepted is the invariant of the reader's runs; the converse
runs the reader along a tree. As the tree is read off its tokens, they have no other tree. -/

namespace FilterLang

/-! ### Runs along a tree -/

section Spelled

variable {extent : Extent} {room eof : Nat}

theorem Comparison.run_spelled (c : Comparison) {gs : List OpenGroup} {before : Before}
    {read rest : List Placed} (hread : read.map Placed.token = c.tokens) :
    Reader.run extent room eof ⟨gs, .item before⟩ (read ++ rest) =
      Reader.run extent room eof ⟨gs, .joint (before.add (.comparison c))⟩ rest := by
  simp only [Comparison.tokens, List.map_eq_cons_iff, List.map_eq_nil_iff] at hread
  obtain ⟨⟨l, o⟩, _, rfl, rfl, ⟨m, p⟩, _, rfl, rfl, ⟨r, q⟩, _, rfl, rfl, rfl⟩ := hread
  simp only [List.cons_append, List.nil_append]
  rw [Reader.run_cons .left, Reader.run_cons .relation, Reader.run_cons .right]

mutual

/-- Along the tokens of an item the reader goes on from before it to behind it. -/
theorem Expr.run_spelled {gs : List OpenGroup} {before : Before} {read rest : List Placed} :
    (e : Expr) → read.map Placed.token = e.tokens → e.depth + gs.length ≤ room →
      Reader.run extent room eof ⟨gs, .item before⟩ (read ++ rest) =
        Reader.run extent room eof ⟨gs, .joint (before.add e)⟩ rest
  | .comparison c, hread, _ => c.run_spelled hread
  | .group inner, hread, hdepth => by
    simp only [Expr.tokens, List.map_eq_cons_iff, List.map_eq_append_iff,
      List.map_eq_nil_iff] at hread
    obtain ⟨⟨l, o⟩, _, rfl, rfl, mid, _, rfl, hmid, ⟨r, q⟩, _, rfl, rfl, rfl⟩ := hread
    simp only [Expr.depth] at hdepth
    simp only [List.cons_append, List.append_assoc, List.nil_append]
    rw [Reader.run_cons (.opened (by omega)), Chain.run_spelled inner hmid
      (by simp only [List.length_cons]; omega) (.inl (by simp)), Reader.run_cons .closed]

/-- Along the tokens of a chain the reader goes on from its beginning to behind it, if it is to
read on after an item at all. -/
theorem Chain.run_spelled {gs : List OpenGroup} {read rest : List Placed} :
    (c : Chain) → read.map Placed.token = c.tokens → c.depth + gs.length ≤ room →
      gs ≠ [] ∨ extent = .chain →
      Reader.run extent room eof ⟨gs, .item .nothing⟩ (read ++ rest) =
        Reader.run extent room eof ⟨gs, .joint c⟩ rest
  | .one item, hread, hdepth, _ => Expr.run_spelled item hread hdepth
  | .join before k item, hread, hdepth, hgs => by
    simp only [Chain.tokens, List.map_eq_cons_iff, List.map_eq_append_iff] at hread
    obtain ⟨first, _, rfl, hfirst, ⟨l, o⟩, last, rfl, rfl, hlast⟩ := hread
    simp only [Chain.depth] at hdepth
    simp only [List.append_assoc, List.cons_append]
    rw [Chain.run_spelled before hfirst (by omega) hgs, Reader.run_cons (.connective hgs),
      Expr.run_spelled item hlast (by omega)]
    rfl

end

end Spelled

/-- At the end of a chain, a run stops where the tokens end or no connective follows. -/
theorem Reader.run_joint {extent : Extent} {room eof : Nat} {c : Chain} {rest : List Placed}
    (h : extent = .item ∨ ∀ p ∈ rest.head?, p.token.connective? = none) :
    Reader.run extent room eof ⟨[], .joint c⟩ rest = ⟨.ok c, rest⟩ := by
  cases rest with
  | nil => rfl
  | cons t ts => rw [Reader.run, Reader.step_eq_stop_iff.mpr ⟨rfl, by simpa using h⟩]

namespace Reading

variable {depth eof : Nat} {ts rest : List Placed} {c : Chain}

/-- Tokens of the list spell the given ones, up to the rest of the list. -/
def Spelled (tokens : List Token) (ts rest : List Placed) : Prop :=
  ∃ read, ts = read ++ rest ∧ read.map Placed.token = tokens

theorem chain_eq_ok_iff :
    chain depth eof ts = ⟨.ok c, rest⟩ ↔
      Spelled c.tokens ts rest ∧ (∀ p ∈ rest.head?, p.token.connective? = none) ∧
        ∀ k ∈ c.groupLevels, depth + k < maxDepth := by
  rw [Chain.within_iff]
  constructor
  · intro h
    obtain ⟨⟨read, hts, hread⟩, hdepth, hrest⟩ := Reader.run_sound h (Reader.fits_initial _)
    exact ⟨⟨read, hts, by simpa using hread.symm⟩, hrest rfl, hdepth⟩
  · rintro ⟨⟨read, rfl, hread⟩, hrest, hdepth⟩
    rw [chain, Reader.initial, c.run_spelled hread (by simpa using hdepth) (.inr rfl),
      Reader.run_joint (.inr hrest)]

end Reading

/-! ### First and other items -/

namespace Chain

/-- The first item of a chain. -/
def first : Chain → Expr
  | .one item => item
  | .join before _ _ => before.first

/-- The items of a chain behind the first one, each with the connective before it. -/
def rest : Chain → List (Connective × Expr)
  | .one _ => []
  | .join before k item => before.rest ++ [(k, item)]

/-- The chain with more items behind it. -/
def extend (c : Chain) (more : List (Connective × Expr)) : Chain :=
  more.foldl (fun c p => .join c p.1 p.2) c

variable {c : Chain} {k : Connective} {item : Expr} {more : List (Connective × Expr)}

@[simp] theorem extend_nil : c.extend [] = c := rfl

@[simp] theorem extend_cons : c.extend ((k, item) :: more) = (c.join k item).extend more := rfl

theorem extend_append (c : Chain) (xs ys : List (Connective × Expr)) :
    c.extend (xs ++ ys) = (c.extend xs).extend ys := List.foldl_append

theorem extend_first_rest (c : Chain) : (one c.first).extend c.rest = c := by
  induction c using Chain.first.induct with
  | case1 item => rfl
  | case2 before k item ih => rw [first, rest, extend_append, ih, extend_cons, extend_nil]

theorem tokens_extend (c : Chain) (more : List (Connective × Expr)) :
    (c.extend more).tokens = c.tokens ++ more.flatMap fun p => .connective p.1 :: p.2.tokens := by
  induction more generalizing c with
  | nil => simp
  | cons p more ih => rw [extend_cons, ih, tokens, List.flatMap_cons, List.append_assoc]

theorem depth_extend_le_iff {n : Nat} :
    (c.extend more).depth ≤ n ↔ c.depth ≤ n ∧ ∀ p ∈ more, p.2.depth ≤ n := by
  induction more generalizing c with
  | nil => simp
  | cons p more ih => rw [extend_cons, ih, depth, Nat.max_le, List.forall_mem_cons, and_assoc]

theorem tokens_eq_first_rest (c : Chain) :
    c.tokens = c.first.tokens ++ c.rest.flatMap fun p => .connective p.1 :: p.2.tokens := by
  have h := tokens_extend (one c.first) c.rest
  rwa [extend_first_rest, tokens] at h

theorem depth_le_iff {n : Nat} :
    c.depth ≤ n ↔ c.first.depth ≤ n ∧ ∀ p ∈ c.rest, p.2.depth ≤ n := by
  have h : ((one c.first).extend c.rest).depth ≤ n ↔ _ := depth_extend_le_iff
  rwa [extend_first_rest, depth] at h

end Chain

theorem Chain.tokens_ne_nil (c : Chain) : c.tokens ≠ [] := by
  intro h
  rw [tokens_eq_first_rest, List.append_eq_nil_iff] at h
  cases hitem : c.first <;> simp [hitem, Expr.tokens, Comparison.tokens] at h

/-- A token sequence spells one tree at most. -/
theorem Chain.tokens_injective {c d : Chain} (h : c.tokens = d.tokens) : c = d := by
  let read := c.tokens.map fun t => Placed.mk t 0
  have hread : read.map Placed.token = c.tokens := by simp [read, Function.comp_def]
  -- One run along the tokens ends in both trees.
  have hrun : ∀ e : Chain, read.map Placed.token = e.tokens → e.depth ≤ max c.depth d.depth →
      Reader.run .chain (max c.depth d.depth) 0 ⟨[], .item .nothing⟩ (read ++ []) = ⟨.ok e, []⟩ :=
    fun e he hdepth => e.run_spelled he hdepth (.inr rfl)
  have hc := hrun c hread (Nat.le_max_left _ _)
  have hd := hrun d (h ▸ hread) (Nat.le_max_right _ _)
  simpa using hc.symm.trans hd

namespace Reading

variable {depth eof : Nat} {ts rest : List Placed} {c : Chain}

theorem item_eq_ok_iff :
    item depth eof ts = ⟨.ok c, rest⟩ ↔
      ∃ e, c = .one e ∧ Spelled e.tokens ts rest ∧ ∀ k ∈ e.groupLevels, depth + k < maxDepth := by
  constructor
  · intro h
    obtain ⟨⟨read, rfl, hread⟩, hdepth, -⟩ := Reader.run_sound h (Reader.fits_initial _)
    have hsplit : read.map Placed.token = c.first.tokens ++ _ :=
      hread.symm.trans c.tokens_eq_first_rest
    obtain ⟨read₁, read₂, rfl, hread₁, -⟩ := List.map_eq_append_iff.mp hsplit
    -- The run stops behind the first item, so there is no other one.
    have hfirst := (Chain.depth_le_iff.mp hdepth).1
    have hrun : Reader.run .item (maxDepth - depth) eof ⟨[], .item .nothing⟩
          (read₁ ++ (read₂ ++ rest)) = ⟨.ok (.one c.first), read₂ ++ rest⟩ := by
      rw [c.first.run_spelled hread₁ hfirst]
      exact Reader.run_joint (.inl rfl)
    rw [← List.append_assoc] at hrun
    obtain ⟨hc, hrest⟩ := Reading.mk.inj (h.symm.trans hrun)
    obtain rfl : read₂ = [] := by simpa using hrest.symm
    refine ⟨c.first, Except.ok.inj hc, ⟨read₁, by simp, hread₁⟩, ?_⟩
    exact (Chain.within_iff (.one c.first) depth maxDepth).mpr hfirst
  · rintro ⟨e, rfl, ⟨read, rfl, hread⟩, hlevels⟩
    have hdepth := (Chain.within_iff (.one e) depth maxDepth).mp hlevels
    rw [item, Reader.initial, e.run_spelled hread (by simpa [Chain.depth] using hdepth),
      Reader.run_joint (.inl rfl)]
    rfl

theorem source_eq_ok_iff :
    (source eof ts).outcome = .ok c ↔ ts.map Placed.token = c.tokens ∧ c.depth ≤ maxDepth := by
  cases ts with
  | nil => simp [source, (Chain.tokens_ne_nil c).symm]
  | cons t ts =>
    have hchain : chain 0 eof (t :: ts) = ⟨.ok c, []⟩ ↔
        (t :: ts).map Placed.token = c.tokens ∧ c.depth ≤ maxDepth := by
      rw [chain_eq_ok_iff, Chain.within_iff]
      simp [Spelled]
    rw [← hchain, source, andThen]
    cases h : chain 0 eof (t :: ts) with
    | mk outcome rest => cases outcome <;> cases rest <;> simp

/-- Reading a chain, an item or a whole source gives a tree exactly when its tokens are the next
ones, or all of them, and no group of it is beyond the depth limit. A chain goes on as long as a
connective follows. The tree is the only one with these tokens. -/
theorem ok_iff_spelled :
    (∀ depth eof ts c rest, chain depth eof ts = ⟨.ok c, rest⟩ ↔
      Spelled c.tokens ts rest ∧ (∀ p ∈ rest.head?, p.token.connective? = none) ∧
        ∀ k ∈ c.groupLevels, depth + k < maxDepth) ∧
    (∀ depth eof ts c rest, item depth eof ts = ⟨.ok c, rest⟩ ↔
      ∃ e, c = .one e ∧ Spelled e.tokens ts rest ∧
        ∀ k ∈ e.groupLevels, depth + k < maxDepth) ∧
    (∀ eof ts c, (source eof ts).outcome = .ok c ↔
      ts.map Placed.token = c.tokens ∧ c.depth ≤ maxDepth) ∧
    ∀ c d : Chain, c.tokens = d.tokens → c = d :=
  ⟨fun _ _ _ _ _ => chain_eq_ok_iff, fun _ _ _ _ _ => item_eq_ok_iff,
    fun _ _ _ => source_eq_ok_iff, fun _ _ => Chain.tokens_injective⟩

end Reading

end FilterLang
