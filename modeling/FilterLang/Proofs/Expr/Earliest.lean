import FilterLang.Proofs.Expr.Grammar

/-! Reading reports the first problem at the first place where there is one. A token list is viable
if some expression within the depth limit begins with it. From every state of the reader the tokens
can go on to the end of an expression, so the viable lists are those that the reader goes through;
the token blamed is therefore the first one that no expression has there, and if none is blamed the
whole list is the beginning of an expression. -/

namespace FilterLang

/-- Some expression within the depth limit begins with the tokens. -/
def Viable (ts : List Token) : Prop := ∃ c : Chain, c.depth ≤ maxDepth ∧ ts <+: c.tokens

/-- The parentheses open behind one more token: one that opens comes first, and one that closes
takes away the first. -/
def Placed.track (opened : List Placed) (t : Placed) : List Placed :=
  match t.token with
  | .leftParen => t :: opened
  | .rightParen => opened.tail
  | _ => opened

/-- The opening parentheses that are not closed, the last one first. -/
def stillOpen (ts : List Placed) : List Placed := ts.foldl Placed.track []

namespace Reader

variable {extent : Extent} {room eof : Nat} {r r' : Reader} {t : Placed} {ts us : List Placed}

/-! ### The groups of a state -/

theorem Advances.track (h : Advances extent room r t r') {opened : List Placed}
    (hopen : r.groups.map OpenGroup.offset = opened.map Placed.offset) :
    r'.groups.map OpenGroup.offset = (Placed.track opened t).map Placed.offset := by
  have hoperand : ∀ (o : Operand) (offset : Nat), Placed.track opened ⟨o.token, offset⟩ = opened := by
    intro o offset
    cases o <;> rfl
  cases h with
  | opened _ => simpa [Placed.track] using hopen
  | left => rwa [hoperand]
  | relation => exact hopen
  | right => rwa [hoperand]
  | connective _ => exact hopen
  | closed =>
    rw [Placed.track, List.map_tail, ← hopen]
    rfl

theorem Passes.track (h : Passes extent room r ts r') {opened : List Placed}
    (hopen : r.groups.map OpenGroup.offset = opened.map Placed.offset) :
    r'.groups.map OpenGroup.offset = (ts.foldl Placed.track opened).map Placed.offset := by
  induction h generalizing opened with
  | nil => exact hopen
  | cons first _ ih => exact ih (first.track hopen)

/-- The groups of a state are those whose parentheses are not closed. -/
theorem Passes.stillOpen (h : Passes extent room initial ts r) :
    r.groups.map OpenGroup.offset = (stillOpen ts).map Placed.offset :=
  h.track rfl

theorem Passes.length_stillOpen (h : Passes extent room initial ts r) :
    (FilterLang.stillOpen ts).length = r.groups.length := by
  rw [← List.length_map Placed.offset, ← h.stillOpen, List.length_map]

/-! ### Every state can be completed -/

/-- An operand to go on with where one has to come. -/
def anyOperand : Operand := .literal (.boolean true)

theorem exists_passes_joint (r : Reader) :
    ∃ ts c, Passes extent room r ts ⟨r.groups, .joint c⟩ := by
  obtain ⟨gs, awaiting⟩ := r
  have hright : ∀ before o rel, Passes extent room ⟨gs, .right before o rel⟩
      [⟨anyOperand.token, 0⟩] ⟨gs, .joint (before.add (.comparison ⟨o, rel, anyOperand⟩))⟩ :=
    fun before o rel => .cons .right .nil
  have hrelation : ∀ before o, Passes extent room ⟨gs, .relation before o⟩
      [⟨.relation .equal, 0⟩, ⟨anyOperand.token, 0⟩]
      ⟨gs, .joint (before.add (.comparison ⟨o, .equal, anyOperand⟩))⟩ :=
    fun before o => .cons .relation (hright before o .equal)
  have hitem : ∀ before, Passes extent room ⟨gs, .item before⟩
      [⟨anyOperand.token, 0⟩, ⟨.relation .equal, 0⟩, ⟨anyOperand.token, 0⟩]
      ⟨gs, .joint (before.add (.comparison ⟨anyOperand, .equal, anyOperand⟩))⟩ :=
    fun before => .cons .left (hrelation before anyOperand)
  cases awaiting with
  | item before => exact ⟨_, _, hitem before⟩
  | relation before o => exact ⟨_, _, hrelation before o⟩
  | right before o rel => exact ⟨_, _, hright before o rel⟩
  | joint c => exact ⟨[], c, .nil⟩

theorem exists_passes_close (gs : List OpenGroup) (c : Chain) :
    ∃ ts d, Passes extent room ⟨gs, .joint c⟩ ts ⟨[], .joint d⟩ := by
  induction gs generalizing c with
  | nil => exact ⟨[], c, .nil⟩
  | cons g gs ih =>
    obtain ⟨ts, d, h⟩ := ih (g.before.add (.group c))
    exact ⟨⟨.rightParen, 0⟩ :: ts, d, .cons .closed h⟩

/-- From every state the reader can come to the end of a chain. -/
theorem exists_passes_end (r : Reader) : ∃ ts c, Passes extent room r ts ⟨[], .joint c⟩ := by
  obtain ⟨ts, c, hjoint⟩ := r.exists_passes_joint
  obtain ⟨us, d, hclose⟩ := exists_passes_close r.groups c
  exact ⟨ts ++ us, d, hjoint.append hclose⟩

/-- The reader goes through the tokens of a chain that there is room for. -/
theorem passes_of_spelled {c : Chain} (hts : ts.map Placed.token = c.tokens)
    (hdepth : c.depth ≤ room) : Passes .chain room initial ts ⟨[], .joint c⟩ := by
  have hrun : run .chain room 0 initial (ts ++ []) = ⟨.ok c, []⟩ :=
    c.run_spelled hts hdepth (.inr rfl)
  obtain ⟨read, hread, hpasses, -⟩ := passes_of_run hrun
  rw [List.append_nil, List.append_nil] at hread
  rwa [hread]

/-! ### Tokens that end a source -/

/-- A source cannot go on with a token, which is then an error. -/
inductive Halts (r : Reader) (t : Placed) : ParseError → Prop
  | reject {e : ParseError} : r.step .chain maxDepth t = .reject e → Halts r t e
  | refuse {e : ParseError} : r.step .chain maxDepth t = .refuse e → Halts r t e
  | stop {c : Chain} : r.step .chain maxDepth t = .stop c →
      Halts r t (.trailingToken t.token t.offset)

theorem Halts.offset_eq {e : ParseError} (h : Halts r t e) : e.offset = t.offset := by
  cases h with
  | reject h =>
    obtain ⟨expected, rfl⟩ := exists_of_step_eq_reject h
    rfl
  | refuse h =>
    obtain ⟨-, -, -, rfl⟩ := step_eq_refuse_iff.mp h
    rfl
  | stop => rfl

/-- The error is the same whatever follows the token. -/
theorem Halts.source_eq {read more : List Placed} {e : ParseError} (h : Halts r t e)
    (hread : Passes .chain maxDepth initial read r) :
    (Reading.source eof (read ++ t :: more)).outcome = .error e := by
  have hrun : Reading.chain 0 eof (read ++ t :: more) = r.run .chain maxDepth eof (t :: more) :=
    hread.run_append
  obtain ⟨u, us, hcons⟩ := List.exists_cons_of_ne_nil (l := read ++ t :: more) (by simp)
  rw [hcons] at hrun ⊢
  rw [Reading.source, Reading.andThen, hrun, run]
  cases h with
  | reject h => rw [h]
  | refuse h => rw [h]
  | stop h => rw [h]

end Reader

open Reader

variable {eof : Nat} {r : Reader} {t : Placed} {ts : List Placed}

/-- The viable lists are those that the reader goes through. -/
theorem viable_iff :
    Viable (ts.map Placed.token) ↔ ∃ r, Passes .chain maxDepth initial ts r := by
  constructor
  · rintro ⟨c, hdepth, us, hus⟩
    let more := us.map fun u => Placed.mk u 0
    have hmore : (ts ++ more).map Placed.token = c.tokens := by
      simpa [more, Function.comp_def] using hus
    obtain ⟨r, hr, -⟩ := (passes_of_spelled hmore hdepth).split
    exact ⟨r, hr⟩
  · rintro ⟨r, hr⟩
    obtain ⟨more, c, hmore⟩ := r.exists_passes_end
    have hall := hr.append hmore
    refine ⟨c, (hall.fits (fits_initial _)).inner, more.map Placed.token, ?_⟩
    have htokens := hall.tokens_eq
    rw [tokens_initial, List.nil_append, List.map_append] at htokens
    exact htokens.symm

/-- The token at a place is the first that no expression has there. -/
structure BreaksAt (ts : List Placed) (i : Nat) (t : Placed) : Prop where
  get : ts[i]? = some t
  before : Viable ((ts.take i).map Placed.token)
  after : ¬Viable ((ts.take (i + 1)).map Placed.token)

/-- Expressions begin with all of the tokens, but these are not yet one. -/
structure Unfinished (ts : List Placed) : Prop where
  viable : Viable (ts.map Placed.token)
  incomplete : ∀ c : Chain, c.tokens ≠ ts.map Placed.token

/-- What an error says of the tokens, which end at the offset `eof`. -/
def ParseError.Blames (eof : Nat) (ts : List Placed) : ParseError → Prop
  | .unexpectedToken _ found p => ∃ i, BreaksAt ts i ⟨found, p⟩
  | .trailingToken found p => ∃ i, BreaksAt ts i ⟨found, p⟩
  | .nestingTooDeep p =>
    ∃ i, BreaksAt ts i ⟨.leftParen, p⟩ ∧ (stillOpen (ts.take i)).length = maxDepth
  | .unexpectedEnd _ p => Unfinished ts ∧ p = eof
  | .unclosedGroup p => Unfinished ts ∧ (stillOpen ts).head?.map Placed.offset = some p
  | .empty => ts = []
  | .invalidToken _ _ => False

theorem breaksAt_of_step {read more : List Placed} (hread : Passes .chain maxDepth initial read r)
    (ht : ∀ r', r.step .chain maxDepth t ≠ .next r') :
    BreaksAt (read ++ t :: more) read.length t where
  get := by simp
  before := by
    rw [List.take_left]
    exact viable_iff.mpr ⟨r, hread⟩
  after := by
    rw [List.append_cons, List.take_left' (by simp), viable_iff]
    rintro ⟨r', hr'⟩
    obtain ⟨s, hs, hlast⟩ := hr'.split
    obtain rfl := hread.unique hs
    cases hlast with
    | cons first _ => exact ht _ (step_of_advances first)

theorem unfinished_of_finish {e : ParseError} (hts : Passes .chain maxDepth initial ts r)
    (he : r.finish eof = .error e) : Unfinished ts where
  viable := viable_iff.mpr ⟨r, hts⟩
  incomplete c hc := by
    -- With enough room the reader would come to the end of the chain, but it comes elsewhere.
    have hend := passes_of_spelled hc.symm (Nat.le_max_left c.depth maxDepth)
    obtain rfl := hend.unique (hts.mono (Nat.le_max_right c.depth maxDepth))
    cases he

theorem blames_of_finish {e : ParseError} (hts : Passes .chain maxDepth initial ts r)
    (he : r.finish eof = .error e) : e.Blames eof ts := by
  have hunfinished := unfinished_of_finish hts he
  have hopen := hts.stillOpen
  obtain ⟨gs, awaiting⟩ := r
  cases awaiting with
  | item before => cases he; exact ⟨hunfinished, rfl⟩
  | relation before o => cases he; exact ⟨hunfinished, rfl⟩
  | right before o rel => cases he; exact ⟨hunfinished, rfl⟩
  | joint c =>
    cases gs with
    | nil => cases he
    | cons g outer =>
      cases he
      refine ⟨hunfinished, ?_⟩
      rw [← List.head?_map, ← hopen]
      rfl

theorem blames_of_step {read more : List Placed} {e : ParseError}
    (hread : Passes .chain maxDepth initial read r)
    (he : r.step .chain maxDepth t = .reject e ∨ r.step .chain maxDepth t = .refuse e) :
    e.Blames eof (read ++ t :: more) := by
  have hbreaks : BreaksAt (read ++ t :: more) read.length t :=
    breaksAt_of_step hread fun r' h => by simp [h] at he
  rcases he with hreject | hrefuse
  · obtain ⟨expected, rfl⟩ := exists_of_step_eq_reject hreject
    exact ⟨_, hbreaks⟩
  · obtain ⟨-, ht, hroom, rfl⟩ := step_eq_refuse_iff.mp hrefuse
    have hfits := (hread.fits (fits_initial _)).inner
    refine ⟨read.length, ht ▸ hbreaks, ?_⟩
    rw [List.take_left, hread.length_stillOpen]
    omega

/-- A source that is no expression is empty, or the error blames the first token that no expression
has there, or the tokens break off within an expression. -/
theorem Reading.source_blames {e : ParseError} (h : (source eof ts).outcome = .error e) :
    (e = .empty ↔ ts = []) ∧ e.Blames eof ts := by
  cases ts with
  | nil =>
    cases h
    exact ⟨Iff.rfl.trans (by simp), rfl⟩
  | cons t ts =>
    have hblames : e.Blames eof (t :: ts) := by
      rw [source, andThen] at h
      rcases hrun : chain 0 eof (t :: ts) with ⟨outcome, rest⟩
      rw [hrun] at h
      cases outcome with
      | error e' =>
        cases h
        rcases passes_of_run_error hrun with ⟨r, hall, hfinish⟩ | ⟨read, u, more, r, hts, hread, hu⟩
        · exact blames_of_finish hall hfinish
        · rw [hts]
          exact blames_of_step hread hu
      | ok c =>
        obtain ⟨read, hts, hread, hrest⟩ := passes_of_run hrun
        cases rest with
        | nil => cases h
        | cons u more =>
          cases h
          have hstop : Reader.step .chain maxDepth ⟨[], .joint c⟩ u = .stop c :=
            step_eq_stop_iff.mpr ⟨rfl, by simpa using hrest⟩
          have hnext : ∀ r', Reader.step .chain maxDepth ⟨[], .joint c⟩ u ≠ .next r' := by
            intro r' hr'
            rw [hstop] at hr'
            cases hr'
          rw [hts]
          exact ⟨_, breaksAt_of_step hread hnext⟩
    constructor
    · constructor
      · intro he
        rw [he] at hblames
        exact hblames
      · intro hts
        cases hts
    · exact hblames

/-- Of 257 opening parentheses, the last one is blamed. -/
theorem Reading.source_blames_deepest :
    let ts := (List.range 257).map fun i => Placed.mk .leftParen i
    (source 257 ts).outcome = .error (.nestingTooDeep 256) ∧
      ∃ i, BreaksAt ts i ⟨.leftParen, 256⟩ ∧ (stillOpen (ts.take i)).length = maxDepth := by
  intro ts
  have h : (source 257 ts).outcome = .error (.nestingTooDeep 256) := rfl
  exact ⟨h, (Reading.source_blames h).2⟩

end FilterLang
