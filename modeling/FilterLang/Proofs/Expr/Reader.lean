import FilterLang.Expr.Reading
import FilterLang.Proofs.Expr.Spelling

/-! What a step of the reader can do is listed once, as a relation; from it come the two
invariants of a run. The tokens consumed are those that spell the state: the contents of the open
groups, outermost first, and what is begun in the innermost one. And no group of the state lies
deeper than there is room for. A run goes through tokens step by step as long as they fit; so what
it gives is spelled by the tokens it has consumed. -/

namespace FilterLang

namespace Reader

variable {extent : Extent} {room eof : Nat} {r r' : Reader} {t : Placed} {ts : List Placed}

/-- The steps that consume a token and go on. -/
inductive Advances (extent : Extent) (room : Nat) : Reader → Placed → Reader → Prop
  | opened {gs : List OpenGroup} {before : Before} {offset : Nat} (h : gs.length < room) :
    Advances extent room ⟨gs, .item before⟩ ⟨.leftParen, offset⟩
      ⟨⟨offset, before⟩ :: gs, .item .nothing⟩
  | left {gs : List OpenGroup} {before : Before} {o : Operand} {offset : Nat} :
    Advances extent room ⟨gs, .item before⟩ ⟨o.token, offset⟩ ⟨gs, .relation before o⟩
  | relation {gs : List OpenGroup} {before : Before} {o : Operand} {r : Relation} {offset : Nat} :
    Advances extent room ⟨gs, .relation before o⟩ ⟨.relation r, offset⟩ ⟨gs, .right before o r⟩
  | right {gs : List OpenGroup} {before : Before} {o p : Operand} {r : Relation} {offset : Nat} :
    Advances extent room ⟨gs, .right before o r⟩ ⟨p.token, offset⟩
      ⟨gs, .joint (before.add (.comparison ⟨o, r, p⟩))⟩
  | connective {gs : List OpenGroup} {c : Chain} {k : Connective} {offset : Nat}
      (h : gs ≠ [] ∨ extent = .chain) :
    Advances extent room ⟨gs, .joint c⟩ ⟨.connective k, offset⟩ ⟨gs, .item (.chain c k)⟩
  | closed {g : OpenGroup} {gs : List OpenGroup} {c : Chain} {offset : Nat} :
    Advances extent room ⟨g :: gs, .joint c⟩ ⟨.rightParen, offset⟩
      ⟨gs, .joint (g.before.add (.group c))⟩

theorem step_of_advances (h : Advances extent room r t r') : r.step extent room t = .next r' := by
  cases h with
  | opened h => simp [step, h]
  | left => simp [step, Operand.token_ne_leftParen, Placed.operand, orReject]
  | relation => simp [step, Placed.relation, Token.relation?, orReject]
  | right => simp [step, Placed.operand, orReject]
  | connective h =>
    rcases h with h | rfl
    · simp [step, h, Token.connective?]
    · simp [step, Token.connective?]
  | closed => simp [step, Token.connective?]

theorem advances_of_step (h : r.step extent room t = .next r') : Advances extent room r t r' := by
  obtain ⟨gs, awaiting⟩ := r
  obtain ⟨token, offset⟩ := t
  cases awaiting with
  | item before =>
    simp only [step] at h
    split at h
    next ht =>
      split at h
      next hroom => cases h; cases ht; exact .opened hroom
      next => cases h
    next =>
      cases ho : token.operand? with
      | none => simp [Placed.operand, ho, orReject] at h
      | some o =>
        rw [Token.operand?_eq_some_iff] at ho
        simp only [ho, Placed.operand, Operand.operand?_token, orReject, Move.next.injEq] at h
        subst h ho
        exact .left
  | relation before o =>
    cases hr : token.relation? with
    | none => simp [step, Placed.relation, hr, orReject] at h
    | some rel =>
      simp only [step, Placed.relation, hr, orReject, Move.next.injEq] at h
      rw [Token.relation?_eq_some_iff] at hr
      subst h hr
      exact .relation
  | right before o rel =>
    cases ho : token.operand? with
    | none => simp [step, Placed.operand, ho, orReject] at h
    | some p =>
      simp only [step, Placed.operand, ho, orReject, Move.next.injEq] at h
      rw [Token.operand?_eq_some_iff] at ho
      subst h ho
      exact .right
  | joint c =>
    simp only [step] at h
    split at h
    next => cases h
    next hjoint =>
      split at h
      next k hk =>
        rw [Token.connective?_eq_some_iff] at hk
        cases h
        subst hk
        refine .connective ?_
        cases gs with
        | nil => cases extent <;> simp_all
        | cons g gs => simp
      next =>
        split at h
        next => cases h
        next g outer =>
          split at h
          next ht => cases h; cases ht; exact .closed
          next => cases h

theorem step_eq_next_iff : r.step extent room t = .next r' ↔ Advances extent room r t r' :=
  ⟨advances_of_step, step_of_advances⟩

/-- Reading ends before a token exactly where a chain is complete on the outermost level and the
token cannot go on with it. -/
theorem step_eq_stop_iff {c : Chain} :
    r.step extent room t = .stop c ↔
      r = ⟨[], .joint c⟩ ∧ (extent = .item ∨ t.token.connective? = none) := by
  obtain ⟨gs, awaiting⟩ := r
  cases awaiting with
  | item before =>
    simp only [step, orReject]
    split
    · split <;> simp
    · split <;> simp
  | relation before o => simp only [step, orReject]; split <;> simp
  | right before o rel => simp only [step, orReject]; split <;> simp
  | joint d =>
    cases gs with
    | nil => cases extent <;> cases hk : t.token.connective? <;> simp [step, hk]
    | cons g gs =>
      simp only [step, List.isEmpty_cons, Bool.false_eq_true, false_and, ↓reduceIte]
      split
      · simp
      · split <;> simp

/-- A token that is consumed and does not fit is reported with its place. -/
theorem exists_of_step_eq_reject {e : ParseError} (h : r.step extent room t = .reject e) :
    ∃ expected, e = .unexpectedToken expected t.token t.offset := by
  obtain ⟨gs, awaiting⟩ := r
  have hoperand : ∀ {next : Operand → Awaiting}, orReject ⟨gs, awaiting⟩ t.operand next = .reject e →
      ∃ expected, e = .unexpectedToken expected t.token t.offset := by
    intro next h
    unfold Placed.operand at h
    split at h <;> cases h
    exact ⟨_, rfl⟩
  cases awaiting with
  | item before =>
    simp only [step] at h
    split at h
    · split at h <;> cases h
    · exact hoperand h
  | relation before o =>
    simp only [step, Placed.relation] at h
    split at h <;> cases h
    exact ⟨_, rfl⟩
  | right before o rel => exact hoperand h
  | joint c =>
    simp only [step] at h
    split at h
    · cases h
    · split at h
      · cases h
      · split at h
        · cases h
        · split at h <;> cases h
          exact ⟨_, rfl⟩

/-- A token is left where it is exactly if it would open a group that there is no room for. -/
theorem step_eq_refuse_iff {e : ParseError} :
    r.step extent room t = .refuse e ↔
      (∃ before, r.awaiting = .item before) ∧ t.token = .leftParen ∧ room ≤ r.groups.length ∧
        e = .nestingTooDeep t.offset := by
  obtain ⟨gs, awaiting⟩ := r
  have hreject : ∀ {α : Type} {result : Except ParseError α} {next : α → Awaiting},
      orReject ⟨gs, awaiting⟩ result next ≠ .refuse e := by
    intro α result next
    cases result <;> simp [orReject]
  cases awaiting with
  | item before =>
    simp only [step]
    split
    next ht =>
      split
      next hroom => simp [Nat.not_le.mpr hroom]
      next hroom => simp [ht, Nat.not_lt.mp hroom, eq_comm]
    next ht => simp [ht, hreject]
  | relation before o => simp [step, hreject]
  | right before o rel => simp [step, hreject]
  | joint c =>
    simp only [step]
    split
    · simp
    · split
      · simp
      · split
        · simp
        · split <;> simp

theorem finish_eq_ok_iff {c : Chain} : r.finish eof = .ok c ↔ r = ⟨[], .joint c⟩ := by
  obtain ⟨gs, awaiting⟩ := r
  cases awaiting <;> cases gs <;> simp [finish]

end Reader

/-! ### The tokens consumed -/

/-- The tokens before an item of a chain. -/
def Before.tokens : Before → List Token
  | .nothing => []
  | .chain c k => c.tokens ++ [.connective k]

@[simp] theorem Before.tokens_add (b : Before) (e : Expr) :
    (b.add e).tokens = b.tokens ++ e.tokens := by
  cases b <;> simp [Before.add, Before.tokens, Chain.tokens]

/-- The tokens of an open group that stand before its contents. -/
def OpenGroup.tokens (g : OpenGroup) : List Token := g.before.tokens ++ [.leftParen]

/-- The tokens of what is begun in the innermost group. -/
def Awaiting.tokens : Awaiting → List Token
  | .item before => before.tokens
  | .relation before left => before.tokens ++ [left.token]
  | .right before left r => before.tokens ++ [left.token, .relation r]
  | .joint chain => chain.tokens

namespace Reader

variable {extent : Extent} {room eof : Nat} {r r' : Reader} {t : Placed}

/-- The tokens that lead to a state. -/
def tokens (r : Reader) : List Token :=
  r.groups.reverse.flatMap OpenGroup.tokens ++ r.awaiting.tokens

@[simp] theorem tokens_initial : initial.tokens = [] := rfl

theorem Advances.tokens_eq (h : Advances extent room r t r') :
    r'.tokens = r.tokens ++ [t.token] := by
  cases h <;> simp [Reader.tokens, Awaiting.tokens, Before.tokens, OpenGroup.tokens, Expr.tokens,
    Comparison.tokens]

end Reader

/-! ### Room for groups -/

/-- How deep groups nest before an item of a chain. -/
def Before.depth : Before → Nat
  | .nothing => 0
  | .chain c _ => c.depth

@[simp] theorem Before.depth_add (b : Before) (e : Expr) :
    (b.add e).depth = max b.depth e.depth := by
  cases b <;> simp [Before.add, Before.depth, Chain.depth]

/-- How deep groups nest in what is begun in the innermost group. -/
def Awaiting.depth : Awaiting → Nat
  | .item before => before.depth
  | .relation before _ => before.depth
  | .right before _ _ => before.depth
  | .joint chain => chain.depth

/-- Is there room for what precedes every open group? -/
def OpenGroup.Fit (room : Nat) : List OpenGroup → Prop
  | [] => True
  | g :: outer => g.before.depth + outer.length ≤ room ∧ Fit room outer

namespace Reader

variable {extent : Extent} {room eof : Nat} {r r' : Reader} {t : Placed} {ts : List Placed}

/-- Is there room for all groups of a state, open or closed? -/
structure Fits (room : Nat) (r : Reader) : Prop where
  outer : OpenGroup.Fit room r.groups
  inner : r.awaiting.depth + r.groups.length ≤ room

theorem fits_initial (room : Nat) : initial.Fits room :=
  ⟨trivial, Nat.zero_le room⟩

theorem Advances.fits (h : Advances extent room r t r') (hr : r.Fits room) : r'.Fits room := by
  obtain ⟨houter, hinner⟩ := hr
  cases h with
  | opened h =>
    refine ⟨⟨hinner, houter⟩, ?_⟩
    simpa [Awaiting.depth, Before.depth, Nat.add_one_le_iff] using h
  | left => exact ⟨houter, hinner⟩
  | relation => exact ⟨houter, hinner⟩
  | right =>
    refine ⟨houter, ?_⟩
    simpa [Awaiting.depth, Expr.depth] using hinner
  | connective h => exact ⟨houter, hinner⟩
  | closed =>
    refine ⟨houter.2, ?_⟩
    have := houter.1
    simp only [Awaiting.depth, Before.depth_add, Expr.depth, List.length_cons] at hinner ⊢
    omega

/-! ### Runs -/

/-- The reader goes through the tokens from one state to another. -/
inductive Passes (extent : Extent) (room : Nat) : Reader → List Placed → Reader → Prop
  | nil {r : Reader} : Passes extent room r [] r
  | cons {r r' r'' : Reader} {t : Placed} {ts : List Placed} (first : Advances extent room r t r')
      (rest : Passes extent room r' ts r'') : Passes extent room r (t :: ts) r''

section Passes

variable {r'' : Reader} {us : List Placed}

theorem Advances.unique (h : Advances extent room r t r') (h' : Advances extent room r t r'') :
    r' = r'' := by
  simpa using (step_of_advances h).symm.trans (step_of_advances h')

/-- More room does no harm. -/
theorem Advances.mono {room' : Nat} (h : Advances extent room r t r') (hroom : room ≤ room') :
    Advances extent room' r t r' := by
  cases h with
  | opened h => exact .opened (Nat.lt_of_lt_of_le h hroom)
  | left => exact .left
  | relation => exact .relation
  | right => exact .right
  | connective h => exact .connective h
  | closed => exact .closed

theorem Passes.append (h : Passes extent room r ts r') (h' : Passes extent room r' us r'') :
    Passes extent room r (ts ++ us) r'' := by
  induction h with
  | nil => exact h'
  | cons first _ ih => exact .cons first (ih h')

theorem Passes.split (h : Passes extent room r (ts ++ us) r'') :
    ∃ r', Passes extent room r ts r' ∧ Passes extent room r' us r'' := by
  induction ts generalizing r with
  | nil => exact ⟨r, .nil, h⟩
  | cons t ts ih =>
    cases h with
    | cons first rest =>
      obtain ⟨r', hts, hus⟩ := ih rest
      exact ⟨r', .cons first hts, hus⟩

theorem Passes.unique (h : Passes extent room r ts r') (h' : Passes extent room r ts r'') :
    r' = r'' := by
  induction h with
  | nil => cases h'; rfl
  | cons first _ ih =>
    cases h' with
    | cons first' rest' => exact ih (first.unique first' ▸ rest')

theorem Passes.mono {room' : Nat} (h : Passes extent room r ts r') (hroom : room ≤ room') :
    Passes extent room' r ts r' := by
  induction h with
  | nil => exact .nil
  | cons first _ ih => exact .cons (first.mono hroom) ih

theorem Passes.tokens_eq (h : Passes extent room r ts r') :
    r'.tokens = r.tokens ++ ts.map Placed.token := by
  induction h with
  | nil => simp
  | cons first _ ih => rw [ih, first.tokens_eq, List.append_assoc, List.map_cons]; rfl

theorem Passes.fits (h : Passes extent room r ts r') (hr : r.Fits room) : r'.Fits room := by
  induction h with
  | nil => exact hr
  | cons first _ ih => exact ih (first.fits hr)

end Passes

theorem run_cons (h : Advances extent room r t r') :
    r.run extent room eof (t :: ts) = r'.run extent room eof ts := by
  rw [run, step_eq_next_iff.mpr h]

theorem Passes.run_append {us : List Placed} (h : Passes extent room r ts r') :
    r.run extent room eof (ts ++ us) = r'.run extent room eof us := by
  induction h with
  | nil => rfl
  | cons first _ ih => rw [List.cons_append, run_cons first, ih]

/-- A run that gives a chain has gone through some of the tokens to the end of that chain. -/
theorem passes_of_run {c : Chain} {rest : List Placed}
    (h : r.run extent room eof ts = ⟨.ok c, rest⟩) :
    ∃ read, ts = read ++ rest ∧ Passes extent room r read ⟨[], .joint c⟩ ∧
      (extent = .item ∨ ∀ p ∈ rest.head?, p.token.connective? = none) := by
  induction ts generalizing r with
  | nil =>
    simp only [run, Reading.mk.injEq] at h
    obtain ⟨hfinish, rfl⟩ := h
    obtain rfl := finish_eq_ok_iff.mp hfinish
    exact ⟨[], rfl, .nil, .inr (by simp)⟩
  | cons t ts ih =>
    rw [run] at h
    split at h
    next r' hstep =>
      obtain ⟨read, rfl, hread, hrest⟩ := ih h
      exact ⟨t :: read, rfl, .cons (step_eq_next_iff.mp hstep) hread, hrest⟩
    next d hstep =>
      obtain ⟨hc, rfl⟩ := Reading.mk.inj h
      obtain ⟨rfl, hstop⟩ := step_eq_stop_iff.mp (Except.ok.inj hc ▸ hstep)
      exact ⟨[], rfl, .nil, by simpa using hstop⟩
    next => cases h
    next => cases h

/-- A run that fails has gone through all tokens to a state that is not the end of a chain, or
through some of them to a state that has no use for the next one. -/
theorem passes_of_run_error {e : ParseError} {rest : List Placed}
    (h : r.run extent room eof ts = ⟨.error e, rest⟩) :
    (∃ r', Passes extent room r ts r' ∧ r'.finish eof = .error e) ∨
    ∃ read t more r', ts = read ++ t :: more ∧ Passes extent room r read r' ∧
      (r'.step extent room t = .reject e ∨ r'.step extent room t = .refuse e) := by
  induction ts generalizing r with
  | nil => exact .inl ⟨r, .nil, congrArg Reading.outcome h⟩
  | cons t ts ih =>
    rw [run] at h
    split at h
    next r' hstep =>
      have hadv := step_eq_next_iff.mp hstep
      rcases ih h with ⟨r'', hall, hfinish⟩ | ⟨read, u, more, r'', rfl, hread, hu⟩
      · exact .inl ⟨r'', .cons hadv hall, hfinish⟩
      · exact .inr ⟨t :: read, u, more, r'', rfl, .cons hadv hread, hu⟩
    next => cases h
    next e' hstep =>
      obtain ⟨he, -⟩ := Reading.mk.inj h
      exact .inr ⟨[], t, ts, r, rfl, .nil, .inl (Except.error.inj he ▸ hstep)⟩
    next e' hstep =>
      obtain ⟨he, -⟩ := Reading.mk.inj h
      exact .inr ⟨[], t, ts, r, rfl, .nil, .inr (Except.error.inj he ▸ hstep)⟩

/-- What a run gives is spelled by the tokens it has consumed, and there was room for it. -/
theorem run_sound {c : Chain} {rest : List Placed}
    (h : r.run extent room eof ts = ⟨.ok c, rest⟩) (hr : r.Fits room) :
    (∃ read, ts = read ++ rest ∧ c.tokens = r.tokens ++ read.map Placed.token) ∧
      c.depth ≤ room ∧ (extent = .chain → ∀ p ∈ rest.head?, p.token.connective? = none) := by
  obtain ⟨read, hts, hread, hrest⟩ := passes_of_run h
  refine ⟨⟨read, hts, by simpa [tokens, Awaiting.tokens] using hread.tokens_eq⟩,
    (hread.fits hr).inner, ?_⟩
  rintro rfl
  exact hrest.resolve_left (by simp)

end Reader

end FilterLang
