import FilterLang.Proofs.Cache.Requests
import FilterLang.Proofs.Expr.ShortCircuit
import FilterLang.Script

/-! A cache is not noticed. If every resolver gives the same outcome at every call, then whoever
asks a cache, for values or for the truth of chains, gets the replies that the table itself would
give. What differs are the calls: of those that the table makes, the cache leaves out the ones
whose name has been called before and has given a value. -/

namespace FilterLang

variable {σ τ : Type}

/-- A request for the value of a name or for the truth of a chain. -/
inductive Question where
  | value (name : String)
  | truth (c : Chain)

/-- The reply to a request. -/
inductive Reply where
  | value (result : Except Failure Value)
  | truth (result : Except Failure Bool)

/-- What a source replies. -/
def Question.reply (source : Source τ) : Question → τ → Reply × τ
  | .value name, s =>
    let (result, s) := source name s
    (.value result, s)
  | .truth c, s =>
    let (result, s) := c.evaluate source s
    (.truth result, s)

/-- What a source replies to one request after the other. -/
def replies (source : Source τ) : List Question → τ → List Reply × τ
  | [], s => ([], s)
  | question :: rest, s =>
    let (reply, s) := question.reply source s
    let (others, s) := replies source rest s
    (reply :: others, s)

section

variable {τ' : Type} {R : τ → τ' → Prop} {source : Source τ} {source' : Source τ'}
  (h : ∀ name s s', R s s' →
    (source name s).1 = (source' name s').1 ∧ R (source name s).2 (source' name s').2)

include h

/-- Sources that answer alike in related states give the same reply. -/
theorem Question.reply_related (question : Question) {s : τ} {s' : τ'} (hs : R s s') :
    (question.reply source s).1 = (question.reply source' s').1 ∧
      R (question.reply source s).2 (question.reply source' s').2 := by
  cases question with
  | value name =>
    obtain ⟨hanswer, hnext⟩ := h name s s' hs
    exact ⟨congrArg Reply.value hanswer, hnext⟩
  | truth c =>
    obtain ⟨hresult, hnext⟩ := c.inquiry.run_related h hs
    rw [c.run_inquiry, c.run_inquiry] at hresult hnext
    exact ⟨congrArg Reply.truth hresult, hnext⟩

/-- They also give the same replies to requests one after the other. -/
theorem replies_related (questions : List Question) {s : τ} {s' : τ'} (hs : R s s') :
    (replies source questions s).1 = (replies source' questions s').1 ∧
      R (replies source questions s).2 (replies source' questions s').2 := by
  induction questions generalizing s s' with
  | nil => exact ⟨rfl, hs⟩
  | cons question rest ih =>
    obtain ⟨hreply, hnext⟩ := question.reply_related h hs
    obtain ⟨hothers, hlast⟩ := ih hnext
    exact ⟨by simp only [replies, hreply, hothers], hlast⟩

end

/-- What every request keeps, requests one after the other keep. -/
theorem replies_keeps {P : τ → Prop} {source : Source τ}
    (h : ∀ name s, P s → P (source name s).2) (questions : List Question) {s : τ} (hs : P s) :
    P (replies source questions s).2 :=
  (replies_related (R := fun s s' => s = s' ∧ P s)
    (fun name s s' hss => by obtain ⟨rfl, hs⟩ := hss; exact ⟨rfl, rfl, h name s hs⟩) questions
    ⟨rfl, hs⟩).2.2

/-- Every resolver gives the same outcome at every call. -/
def Table.IsSteady (t : Table σ) : Prop :=
  ∀ name run, t.get? name = some (.resolver run) → ∀ host host', (run host).1 = (run host').1

/-- Does a request for the name give a value? -/
def Table.yields (t : Table σ) (host : σ) (name : String) : Bool :=
  (t.get name ⟨host, []⟩).1.toOption.isSome

/-- The calls but those whose name has been called before and gives a value; the last call comes
first. -/
def withoutRepeats (yields : String → Bool) : List String → List String
  | [] => []
  | name :: earlier =>
    if yields name = true ∧ name ∈ earlier then withoutRepeats yields earlier
    else name :: withoutRepeats yields earlier

/-- A table of steady resolvers is a steady source. -/
theorem Table.IsSteady.get {t : Table σ} (ht : t.IsSteady) : Source.IsSteady t.get := by
  intro name w w'
  unfold Table.get
  split
  next symbol hsymbol =>
    cases symbol with
    | value v => rfl
    | json data =>
      simp only [Symbol.resolve]
      split <;> rfl
    | resolver run => exact congrArg (Outcome.answer name) (ht name run hsymbol w.host w'.host)
  next => rfl

theorem Table.get_of_some {t : Table σ} {name : String} {symbol : Symbol σ}
    (h : t.get? name = some symbol) (w : World σ) : t.get name w = symbol.resolve name w := by
  rw [get, h]

theorem Table.IsSteady.yields_iff {t : Table σ} (ht : t.IsSteady) (host : σ) (name : String)
    (w : World σ) : t.yields host name = true ↔ ∃ v, (t.get name w).1 = .ok v := by
  rw [yields, ht.get name _ w]
  cases (t.get name w).1 <;> simp [Except.toOption]

/-- The names that resolving an entry calls. -/
def Symbol.calls (name : String) : Symbol σ → List String
  | .resolver _ => [name]
  | _ => []

theorem Symbol.log_resolve (symbol : Symbol σ) (name : String) (w : World σ) :
    (symbol.resolve name w).2.log = symbol.calls name ++ w.log := by
  cases symbol with
  | value v => rfl
  | json data =>
    simp only [resolve]
    split <;> rfl
  | resolver run => rfl

theorem Symbol.eq_of_mem_calls {symbol : Symbol σ} {name other : String}
    (h : other ∈ symbol.calls name) : other = name := by
  cases symbol with
  | resolver run => exact List.mem_singleton.mp h
  | _ => cases h

/-- A call that repeats one with a value is left out. -/
theorem withoutRepeats_of_repeated {yields : String → Bool} {symbol : Symbol σ} {name : String}
    {earlier : List String} (h : name ∈ symbol.calls name → yields name = true ∧ name ∈ earlier) :
    withoutRepeats yields (symbol.calls name ++ earlier) = withoutRepeats yields earlier := by
  cases symbol with
  | resolver run => exact if_pos (h (List.mem_singleton.mpr rfl))
  | _ => rfl

/-- Any other call stays. -/
theorem withoutRepeats_of_new {yields : String → Bool} {symbol : Symbol σ} {name : String}
    {earlier : List String}
    (h : name ∈ symbol.calls name → yields name = true → name ∉ earlier) :
    withoutRepeats yields (symbol.calls name ++ earlier) =
      symbol.calls name ++ withoutRepeats yields earlier := by
  cases symbol with
  | resolver run =>
    have hnew := h (List.mem_singleton.mpr rfl)
    exact if_neg fun hrepeated => hnew hrepeated.1 hrepeated.2
  | _ => rfl

namespace Cache

/-- What holds of a cache and of its table after the same requests to both: the cache has the values
that the table gives, and among the names with a resolver and a value it has those that the table
has called. -/
structure Shadows (t : Table σ) (host : σ) (s : Cache σ × World σ) (plain : World σ) : Prop where
  table_eq : s.1.table = t
  free : ∀ name k, (s.1.slot name).state ≠ .resolving k
  resolved : ∀ name v, (s.1.slot name).state = .resolved v → (t.get name ⟨host, []⟩).1 = .ok v
  called : ∀ name symbol, t.get? name = some symbol → name ∈ symbol.calls name →
    t.yields host name = true → ((∃ v, (s.1.slot name).state = .resolved v) ↔ name ∈ plain.log)
  log_eq : s.2.log = withoutRepeats (t.yields host) plain.log

theorem shadows_new (t : Table σ) (host : σ) : Shadows t host (new t, ⟨host, []⟩) ⟨host, []⟩ where
  table_eq := rfl
  free _ _ := nofun
  resolved _ _ := nofun
  called _ _ _ _ _ := ⟨fun h => (nomatch h.choose_spec), nofun⟩
  log_eq := rfl

variable {t : Table σ} {host : σ} {c : Cache σ} {w plain : World σ} {name : String} {v : Value}
  {symbol : Symbol σ} {k : Nat}

/-- What the cache has a value for, it need not ask. -/
theorem Shadows.known (h : Shadows t host (c, w) plain) (ht : t.IsSteady)
    (hsymbol : t.get? name = some symbol) (hv : (c.slot name).state = .resolved v) :
    Shadows t host (c, w) (symbol.resolve name plain).2 := by
  have hyields : t.yields host name = true :=
    (ht.yields_iff host name _).mpr ⟨v, h.resolved name v hv⟩
  have hcalled : name ∈ symbol.calls name → name ∈ plain.log := fun hcalls =>
    (h.called name symbol hsymbol hcalls hyields).mp ⟨v, hv⟩
  refine ⟨h.table_eq, h.free, h.resolved, fun other entry hentry hcalls hother => ?_, ?_⟩
  · rw [h.called other entry hentry hcalls hother, symbol.log_resolve, List.mem_append]
    refine (or_iff_right_of_imp fun hmem => ?_).symm
    obtain rfl := Symbol.eq_of_mem_calls hmem
    exact hcalled hmem
  · rw [h.log_eq, symbol.log_resolve,
      withoutRepeats_of_repeated fun hcalls => ⟨hyields, hcalled hcalls⟩]

/-- What the cache has no value for, it asks as the table does. -/
theorem Shadows.resolves (h : Shadows t host (c, w) plain) (ht : t.IsSteady)
    (hsymbol : t.get? name = some symbol) (hlook : (c.slot name).look none = .begin k) :
    Shadows t host (c.settle name k (symbol.resolve name w).1, (symbol.resolve name w).2)
      (symbol.resolve name plain).2 := by
  have hanswer : ∀ v, (symbol.resolve name w).1 = .ok v ↔ (t.get name ⟨host, []⟩).1 = .ok v := by
    rw [ht.get name _ w, Table.get_of_some hsymbol]
    exact fun _ => Iff.rfl
  refine ⟨(c.table_settle name k _).trans h.table_eq, fun other l => ?_, fun other v hv => ?_,
    fun other entry hentry hcalls hyields => ?_, ?_⟩
  · exact settle_ne_resolving (h.free other) name k _ l
  · rw [slot_settle] at hv
    split at hv
    next hname => exact hname ▸ (hanswer v).mp (SlotState.settled_eq_resolved_iff.mp hv)
    next => exact h.resolved other v hv
  · rw [slot_settle, symbol.log_resolve, List.mem_append]
    split
    next hname =>
      subst hname
      obtain rfl : entry = symbol := Option.some.inj (hentry.symm.trans hsymbol)
      obtain ⟨v, hv⟩ := (ht.yields_iff host other ⟨host, []⟩).mp hyields
      exact iff_of_true ⟨v, SlotState.settled_eq_resolved_iff.mpr ((hanswer v).mpr hv)⟩
        (.inl hcalls)
    next hname =>
      rw [h.called other entry hentry hcalls hyields]
      exact (or_iff_right fun hmem => hname (Symbol.eq_of_mem_calls hmem)).symm
  · rw [symbol.log_resolve, symbol.log_resolve, h.log_eq]
    refine (withoutRepeats_of_new fun hcalls hyields hmem => ?_).symm
    obtain ⟨v, hv⟩ := (h.called name symbol hsymbol hcalls hyields).mpr hmem
    exact (Slot.look_eq_begin hlook).2.2 v hv

/-- The cache answers like its table, and goes on to shadow it. -/
theorem Shadows.get {s : Cache σ × World σ} (h : Shadows t host s plain) (ht : t.IsSteady)
    (name : String) :
    (get name s).1 = (t.get name plain).1 ∧
      Shadows t host (Cache.get name s).2 (t.get name plain).2 := by
  obtain ⟨c, w⟩ := s
  have hgets := c.gets w name
  obtain rfl : c.table = t := h.table_eq
  generalize Cache.get name (c, w) = done at hgets ⊢
  cases hgets with
  | unknown hnone =>
    rw [Table.get, hnone]
    exact ⟨rfl, h⟩
  | known hsome hv =>
    obtain ⟨symbol, hsymbol⟩ := Option.isSome_iff_exists.mp hsome
    rw [ht.get name plain ⟨host, []⟩, h.resolved name _ hv, Table.get_of_some hsymbol]
    exact ⟨rfl, h.known ht hsymbol hv⟩
  | stuck hk => exact absurd hk (h.free name _)
  | resolves hsymbol hlook =>
    rw [ht.get name plain w, Table.get_of_some hsymbol, Table.get_of_some hsymbol]
    exact ⟨rfl, h.resolves ht hsymbol hlook⟩

end Cache

/-- With steady resolvers, a cache replies to every sequence of requests like the table that it is
made from, and its calls are those of the table but the ones whose name has been called before and
gives a value. -/
theorem replies_cache {t : Table σ} (ht : t.IsSteady) (host : σ) (questions : List Question) :
    let plain := replies t.get questions ⟨host, []⟩
    let cached := replies Cache.get questions (Cache.new t, ⟨host, []⟩)
    cached.1 = plain.1 ∧ cached.2.2.log = withoutRepeats (t.yields host) plain.2.log := by
  intro plain cached
  have h := replies_related (R := Cache.Shadows t host) (fun name s plain hs => hs.get ht name)
    questions (Cache.shadows_new t host)
  exact ⟨h.1, h.2.log_eq⟩

/-- A table of two names, one that gives a value at every call and one that fails at every call. -/
def unchanging : Table Counts :=
  (NameMap.empty.insert "x" (Script.symbol 0 [.value (.integer 1)])).insert "y"
    (Script.symbol 1 [.failure "down"])

/-- The table calls `x` twice and `y` twice; the cache leaves out the second call of `x`. -/
theorem replies_cache_unchanging :
    let xIsOne : Chain := .one (.comparison ⟨.symbol "x", .equal, .literal (.integer 1)⟩)
    let questions : List Question := [.value "x", .truth xIsOne, .value "y", .value "y"]
    let plain := replies unchanging.get questions ⟨[], []⟩
    let cached := replies Cache.get questions (Cache.new unchanging, ⟨[], []⟩)
    unchanging.IsSteady ∧ cached.1 = plain.1 ∧ plain.2.log = ["y", "y", "x", "x"] ∧
      cached.2.2.log = ["y", "y", "x"] := by
  intro xIsOne questions plain cached
  have hsteady : unchanging.IsSteady := by
    intro name run hrun host host'
    rw [unchanging, NameMap.get?_insert, NameMap.get?_insert] at hrun
    split at hrun
    · cases hrun
      simp only [Script.outcome]
    · split at hrun <;> cases hrun
      simp only [Script.outcome]
  obtain ⟨hreplies, hlog⟩ := replies_cache hsteady [] questions
  exact ⟨hsteady, hreplies, rfl, hlog.trans rfl⟩

end FilterLang
