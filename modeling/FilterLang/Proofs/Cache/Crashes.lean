import FilterLang.Proofs.Cache.Renumbering
import FilterLang.Proofs.Cache.Lasting
import FilterLang.Proofs.Cache.Audit
import Mathlib.Logic.Function.Basic

/-! A crash leaves no trace. The attempt that crashed has a number of its own, and an older failure
is gone from the slot. But the records are as before, the next request for the name begins another
attempt, and whatever is asked later, one request after the other or by callers at the same time,
nobody can tell the cache from one that has not made the call. -/

namespace FilterLang

variable {σ τ α : Type}

/-- The requests for values that a question leads to, with their answers, the first one first. -/
def Question.exchanges (source : Source τ) : Question → τ → List Exchange
  | .value name, s => [(name, (source name s).1)]
  | .truth c, s => c.exchanges source s

/-- The state after requests that have given values. -/
def afterValues (source : Source τ) (earlier : List (String × Value)) (s : τ) : τ :=
  (replies source (earlier.map fun x => .value x.1) s).2

/-- A request that has nothing to do with the attempts begun so far: it has not looked at its slot,
or it has its answer. -/
def Phase.IsUnbound : Phase → Prop
  | .arriving => True
  | .looking none => True
  | .waking _ => True
  | .answered _ => True
  | _ => False

/-- Nobody can tell the caches apart, by their records, by requests one after the other, or by
requests of callers at the same time, provided that those who ask for the name now are not bound to
an attempt. -/
structure Cache.Indistinguishable (name : String) (c c' : Cache σ) : Prop where
  used_eq : c.used = c'.used
  failed_eq : c.failed = c'.failed
  replies_eq : ∀ (questions : List Question) (w : World σ),
    let done := replies get questions (c, w)
    let done' := replies get questions (c', w)
    done.1 = done'.1 ∧ done.2.2 = done'.2.2 ∧
      done.2.1.used = done'.2.1.used ∧ done.2.1.failed = done'.2.1.failed
  callers_eq : ∀ (callers : List Caller) (w : World σ),
    (∀ x ∈ callers, x.name = name → x.phase.IsUnbound) → ∀ events : List (Event σ),
    let now := ((Course.mk ⟨c, w, callers⟩ []).run events).now
    let now' := ((Course.mk ⟨c', w, callers⟩ []).run events).now
    now.world = now'.world ∧ now.cache.used = now'.cache.used ∧
      now.cache.failed = now'.cache.failed ∧
      ∀ i, ((now.step? i).isSome ↔ (now'.step? i).isSome) ∧
        ∀ n result, now.callers[i]? = some ⟨n, .answered result⟩ ↔
          now'.callers[i]? = some ⟨n, .answered result⟩

/-- The next request for the name is not kept waiting: it gets the value on record, without any
effect, or the outcome of a new call of the resolver. -/
def Cache.ServesAnew (name : String) (run : σ → Outcome × σ) (s : Cache σ × World σ) : Prop :=
  (∃ v, s.1.used.get? name = some v ∧ get name s = (.ok v, s)) ∨
    (get name s).1 = (run s.2.host).1.answer name ∧
      (get name s).2.2 = ⟨(run s.2.host).2, name :: s.2.log⟩

/-- Such a request has come equally far, however attempts are numbered. -/
theorem Phase.IsUnbound.like {p : Phase} (h : p.IsUnbound) (b b' : Nat) : p.Like b b' p := by
  cases p with
  | arriving => exact .arriving
  | looking waited =>
    cases waited with
    | none => exact .looking .none
    | some k => exact h.elim
  | waking outcome => exact .waking outcome
  | answered result => exact .answered result
  | _ => exact h.elim

/-! ### Up to the failure -/

/-- An inquiry that ends with a failure has had values before, and then makes the request. -/
theorem Inquiry.exists_before_failure {source : Source τ} {q : Inquiry α} {s : τ} {name : String}
    {f : Failure} (h : (name, .error f) ∈ q.exchanges source s) :
    ∃ earlier : List (String × Value),
      q.exchanges source s = earlier.map (fun x => (x.1, .ok x.2)) ++ [(name, .error f)] ∧
      source name (afterValues source earlier s) = (.error f, (q.run source s).2) := by
  induction q generalizing s with
  | stop result => cases h
  | ask asked next ih =>
    rw [exchanges] at h ⊢
    rw [run]
    rcases hanswer : source asked s with ⟨answer, s'⟩
    rw [hanswer] at h
    cases answer with
    | error g =>
      cases List.mem_singleton.mp h
      exact ⟨[], rfl, hanswer⟩
    | ok v =>
      obtain ⟨earlier, hsplit, hfails⟩ := ih v ((List.mem_cons.mp h).resolve_left (by simp))
      refine ⟨(asked, v) :: earlier, congrArg _ hsplit, ?_⟩
      simpa only [afterValues, List.map_cons, replies, Question.reply, hanswer] using hfails

theorem Question.exists_before_failure {source : Source τ} {question : Question} {s : τ}
    {name : String} {f : Failure} (h : (name, .error f) ∈ question.exchanges source s) :
    ∃ earlier : List (String × Value),
      question.exchanges source s = earlier.map (fun x => (x.1, .ok x.2)) ++ [(name, .error f)] ∧
      source name (afterValues source earlier s) = (.error f, (question.reply source s).2) := by
  cases question with
  | value asked =>
    obtain ⟨rfl, hanswer⟩ := Prod.mk.inj (List.mem_singleton.mp h)
    refine ⟨[], ?_, Prod.ext hanswer.symm rfl⟩
    rw [exchanges, ← hanswer]
    rfl
  | truth c =>
    rw [exchanges, c.exchanges_eq] at h
    obtain ⟨earlier, hsplit, hfails⟩ := Inquiry.exists_before_failure h
    rw [c.run_inquiry] at hfails
    exact ⟨earlier, (c.exchanges_eq source s).trans hsplit, hfails⟩

namespace Cache

variable {table : Table σ} {c c' : Cache σ} {w : World σ} {name : String} {k : Nat}
  {earlier : List (String × Value)}

/-- A request concerns the records of its own name alone. -/
theorem notes_get_of_ne {asked : String} (hname : name ≠ asked) (c : Cache σ) (w : World σ) :
    (get asked (c, w)).2.1.notes name = c.notes name := by
  have hgets := c.gets w asked
  generalize get asked (c, w) = done at hgets ⊢
  cases hgets with
  | resolves => rw [notes_settle, if_neg hname]
  | _ => rfl

theorem notes_afterValues (h : ∀ x ∈ earlier, x.1 ≠ name) (c : Cache σ) (w : World σ) :
    (afterValues get earlier (c, w)).1.notes name = c.notes name := by
  induction earlier generalizing c w with
  | nil => rfl
  | cons x earlier ih =>
    have hfirst := notes_get_of_ne (List.forall_mem_cons.mp h).1.symm c w
    rw [← hfirst]
    exact ih (List.forall_mem_cons.mp h).2 _ _

/-- The cache keeps the values that questions have brought to light. -/
theorem keeps_of_mem_exchanges {question : Question} {n : String} {v : Value}
    (h : (n, .ok v) ∈ question.exchanges get (c, w)) :
    (question.reply get (c, w)).2.1.Keeps n (.ok v) := by
  cases question with
  | value asked =>
    obtain ⟨rfl, hanswer⟩ := Prod.mk.inj (List.mem_singleton.mp h)
    exact keeps_of_ok hanswer.symm
  | truth tree =>
    rw [Question.exchanges, tree.exchanges_eq] at h
    simp only [Question.reply, ← tree.run_inquiry]
    exact tree.inquiry.run_establishes
      (P := fun (s : Cache σ × World σ) x => ∀ v, x.2 = .ok v → s.1.Keeps x.1 (.ok v))
      (fun name s v hv => keeps_of_ok hv) (fun x name s hs v hv => (hs v hv).get name s.2)
      (c, w) _ h v rfl

/-- A request for a name that is not being resolved crashes only by its resolver. -/
theorem Gets.exists_of_crash {done : Except Failure Value × Cache σ × World σ}
    (h : c.Gets w name done) (hfree : ∀ k, (c.slot name).state ≠ .resolving k)
    (hcrash : done.1 = .error .crash) :
    ∃ run k, c.table.get? name = some (.resolver run) ∧ (c.slot name).look none = .begin k ∧
      (run w.host).1 = .crash ∧
      done.2 = (c.settle name k (.error .crash), ⟨(run w.host).2, name :: w.log⟩) := by
  cases h with
  | unknown => cases hcrash
  | known => cases hcrash
  | stuck hk => exact absurd hk (hfree _)
  | @resolves symbol k hsymbol hlook =>
    cases symbol with
    | value v => cases hcrash
    | json data =>
      simp only [Symbol.resolve] at hcrash
      split at hcrash <;> cases hcrash
    | resolver run =>
      have houtcome : (run w.host).1 = .crash := by
        simp only [Symbol.resolve] at hcrash
        generalize (run w.host).1 = outcome at hcrash
        cases outcome <;> cases hcrash
        rfl
      refine ⟨run, k, hsymbol, hlook, houtcome, ?_⟩
      simp only [Symbol.resolve, houtcome, Outcome.answer]

/-- A slot whose attempts have come to no value is free, since it holds no failure but that of the
last one. -/
theorem isFree_after {attempts : List Attempt}
    (h : ∀ a ∈ attempts, ∀ v, a.outcome ≠ .ok v) :
    (Slot.after attempts).state.IsFree ((Slot.after attempts).attempts + 1) := by
  cases attempts with
  | nil => trivial
  | cons a before =>
    obtain ⟨n, number, outcome⟩ := a
    rcases outcome with (e | _) | v
    · exact Nat.lt_succ_self number
    · trivial
    · exact absurd rfl (h _ List.mem_cons_self v)

theorem Reachable.isFree (hc : c.Reachable table) (hlook : (c.slot name).look none = .begin k) :
    (c.slot name).state.IsFree ((c.slot name).attempts + 1) := by
  obtain ⟨host, events, rfl⟩ := hc
  have hr := Course.sound_run table host events
  generalize (Course.start table host).run events = r at hr hlook ⊢
  obtain ⟨-, hbusy, hvalue⟩ := Slot.look_eq_begin hlook
  obtain ⟨-, hafter, -⟩ := (hr.stage name).of_not_resolving hbusy
  rw [hafter] at hvalue ⊢
  exact isFree_after ((hr.inOrder name).ne_ok hvalue)

/-! ### After the crash -/

/-- A crashed attempt has taken a number, and has made a slot vacant that was free before. -/
theorem like_of_vacant (htable : c.table = c'.table) (hused : c.used = c'.used)
    (hfailed : c.failed = c'.failed) (hothers : ∀ other, other ≠ name → c.slot other = c'.slot other)
    (hvacant : c.slot name = ⟨(c'.slot name).attempts + 1, .vacant⟩)
    (hfree : (c'.slot name).state.IsFree ((c'.slot name).attempts + 1)) :
    c.Like (Function.update (fun _ => 0) name ((c'.slot name).attempts + 2))
      (Function.update (fun _ => 0) name ((c'.slot name).attempts + 1)) c' where
  table := htable
  used := hused
  failed := hfailed
  slot other := by
    by_cases hother : other = name
    · subst hother
      rw [Function.update_self, Function.update_self, hvacant]
      exact ⟨.free trivial hfree, Nat.le.refl, Nat.add_comm _ _⟩
    · rw [Function.update_of_ne hother, Function.update_of_ne hother, hothers other hother]
      exact .refl _

/-- Caches that differ in the numbers of attempts on one name cannot be told apart. -/
theorem Like.indistinguishable {n m : Nat}
    (h : c.Like (Function.update (fun _ => 0) name n) (Function.update (fun _ => 0) name m) c') :
    Indistinguishable name c c' where
  used_eq := h.used
  failed_eq := h.failed
  replies_eq questions w := by
    obtain ⟨hreplies, hcache, hworld⟩ := h.replies questions w
    exact ⟨hreplies, hworld, hcache.used, hcache.failed⟩
  callers_eq callers w hunbound events := by
    have hcallers : Callers.Like (Function.update (fun _ => 0) name n)
        (Function.update (fun _ => 0) name m) ⟨c, w, callers⟩ ⟨c', w, callers⟩ := by
      refine ⟨h, rfl, fun i => ?_⟩
      change Option.Rel _ callers[i]? callers[i]?
      cases hi : callers[i]? with
      | none => exact .none
      | some x =>
        refine .some ⟨rfl, ?_⟩
        by_cases hx : x.name = name
        · exact (hunbound x (List.mem_of_getElem? hi) hx).like _ _
        · rw [Function.update_of_ne hx, Function.update_of_ne hx]
          exact .refl _
    have hlast : Callers.Like _ _ ((Course.mk ⟨c, w, callers⟩ []).run events).now
        ((Course.mk ⟨c', w, callers⟩ []).run events).now := Course.like_run hcallers events
    refine ⟨hlast.world, hlast.cache.used, hlast.cache.failed, fun i => ⟨?_, hlast.answered_iff i⟩⟩
    have hstep := hlast.step? i
    generalize Callers.step? _ i = t at hstep ⊢
    generalize Callers.step? _ i = t' at hstep ⊢
    cases hstep <;> simp

theorem servesAnew (hc : c.Consistent) {run : σ → Outcome × σ}
    (hsymbol : c.table.get? name = some (.resolver run))
    (hfree : ∀ k, (c.slot name).state ≠ .resolving k) (w : World σ) :
    ServesAnew name run (c, w) := by
  have hgets := c.gets w name
  unfold ServesAnew
  generalize get name (c, w) = done at hgets ⊢
  cases hgets with
  | unknown hnone => exact nomatch hnone.symm.trans hsymbol
  | @known v _ hv => exact .inl ⟨v, (hc.used_iff name v hfree).mpr hv, rfl⟩
  | stuck hk => exact absurd hk (hfree _)
  | resolves hentry =>
    obtain rfl := Option.some.inj (hentry.symm.trans hsymbol)
    exact .inr ⟨rfl, rfl⟩

theorem Reachable.table_eq (hc : c.Reachable table) : c.table = table := by
  obtain ⟨host, events, rfl⟩ := hc
  exact (Course.listed_run table host events).1

/-- Some course leads to the cache, and nobody is resolving the name. -/
structure Ready (table : Table σ) (name : String) (c : Cache σ) : Prop where
  reachable : c.Reachable table
  free : ∀ k, (c.slot name).state ≠ .resolving k

theorem Ready.replies (h : c.Ready table name) (questions : List Question) (w : World σ) :
    (replies Cache.get questions (c, w)).2.1.Ready table name :=
  replies_keeps (P := fun s : Cache σ × World σ => s.1.Ready table name)
    (fun asked s hs => ⟨hs.reachable.get s.2 asked, ne_resolving_get hs.free s.2 asked⟩)
    questions h

/-- What a request for a name that crashes makes of a cache. -/
theorem Ready.exists_of_crash (h : c.Ready table name) {c' : Cache σ} {w' : World σ}
    (hcrash : get name (c, w) = (.error .crash, c', w')) :
    ∃ run, table.get? name = some (.resolver run) ∧ (run w.host).1 = .crash ∧
      w' = ⟨(run w.host).2, name :: w.log⟩ ∧ c'.Ready table name ∧ c'.notes name = c.notes name ∧
      (∀ v, (c'.slot name).state ≠ .resolved v) ∧ Indistinguishable name c' c := by
  have hgets := c.gets w name
  have hready : (get name (c, w)).2.1.Ready table name :=
    h.replies [.value name] w
  rw [hcrash] at hgets hready
  obtain ⟨run, k, hsymbol, hlook, houtcome, hafter⟩ := hgets.exists_of_crash h.free rfl
  obtain ⟨rfl, rfl⟩ := Prod.mk.inj hafter
  rw [h.reachable.table_eq] at hsymbol
  refine ⟨run, hsymbol, houtcome, rfl, hready, ?_, fun v hv => ?_, ?_⟩
  · rw [notes_settle, if_pos rfl]
    rfl
  · rw [slot_settle, if_pos rfl] at hv
    cases hv
  · have hvacant : (c.settle name k (.error .crash)).slot name =
        ⟨(c.slot name).attempts + 1, .vacant⟩ := by
      rw [slot_settle, if_pos rfl, (Slot.look_eq_begin hlook).1]
      rfl
    exact (like_of_vacant (table_settle c name k _) rfl rfl
      (fun other hother => by rw [slot_settle, if_neg hother]) hvacant
      (h.reachable.isFree hlook)).indistinguishable

/-- Among callers at the same time, an attempt that has crashed ends when its slot becomes vacant.
The records then say of the name what the attempts before it have left, and nobody can tell the
cache from the one that has the slot of these attempts. -/
theorem indistinguishable_of_crash {r : Course σ} (hr : r.Sound) {i : Nat}
    (hi : r.now.callers[i]? = some ⟨name, .publishing k (.error .crash)⟩) :
    ∃ before : List Attempt, r.attempts name = ⟨name, k, .error .crash⟩ :: before ∧
      (r.next (.step i)).now.cache.notes name = Attempt.notes before ∧
      Indistinguishable name (r.next (.step i)).now.cache
        ((r.next (.step i)).now.cache.setSlot name (.after before)) := by
  have hnext : (r.next (.step i)).now.cache = r.now.cache.publish name k (.error .crash) := by
    simp only [Course.next, Callers.step?_of_moves hi .publish]
    rfl
  rw [hnext]
  have horder := hr.inOrder name
  have hstage := hr.stage name
  unfold Course.StageOf at hstage
  have hholds : r.now.Holds name i (.publishing k (.error .crash)) := ⟨hi, rfl⟩
  generalize r.attempts name = attempts at horder hstage ⊢
  cases hstage with
  | idle hnobody => exact absurd hholds (hnobody _ _)
  | begun j hheld => cases ((hheld _ _).mp hholds).2
  | concluded j o hheld => cases ((hheld _ _).mp hholds).2
  | @noted before j o hheld hslot hnotes =>
    obtain ⟨rfl, hphase⟩ := (hheld _ _).mp hholds
    cases hphase
    have hattempts := Slot.attempts_after horder.2.2
    refine ⟨before, rfl, hnotes, Like.indistinguishable (like_of_vacant rfl rfl rfl ?_ ?_ ?_)⟩
    · intro other hother
      rw [slot_setSlot, if_neg hother]
    · rw [slot_publish, if_pos rfl, hslot, slot_setSlot, if_pos rfl, hattempts]
      rfl
    · rw [slot_setSlot, if_pos rfl]
      exact isFree_after horder.2.1

/-- A request on which a resolver crashes, which is one for a name that is not being resolved, has
had values before, and then calls the resolver. These values are recorded; of the name that crashed
the records say what they said before. From then on nobody can tell the cache from one that was not
asked for that name, while the host has seen the call. The name has no value then, and no later
request for it is kept waiting or gets anything but a value recorded since or a new outcome.

Among callers at the same time it is so from the moment when the slot becomes vacant: the records
say of the name what the attempts before the crashed one have left, and nobody can tell the cache
from one with the slot that those attempts have left. -/
theorem crash_leaves_no_trace (table : Table σ) (name : String) :
    (∀ (c : Cache σ) (w : World σ) (question : Question), c.Reachable table →
      (∀ k, (c.slot name).state ≠ .resolving k) →
      (name, .error .crash) ∈ question.exchanges get (c, w) →
      ∃ (run : σ → Outcome × σ) (earlier : List (String × Value)),
        let before := afterValues get earlier (c, w)
        let after := (question.reply get (c, w)).2
        table.get? name = some (.resolver run) ∧
        question.exchanges get (c, w) =
          earlier.map (fun x => (x.1, .ok x.2)) ++ [(name, .error .crash)] ∧
        (run before.2.host).1 = .crash ∧
        after.2 = ⟨(run before.2.host).2, name :: before.2.log⟩ ∧
        (∀ x ∈ earlier, after.1.used.get? x.1 = some x.2) ∧
        after.1.notes name = c.notes name ∧
        Indistinguishable name after.1 before.1 ∧
        after.1.used.get? name = none ∧
        ∀ later : List Question, ServesAnew name run (replies get later after).2) ∧
    ∀ (host : σ) (events : List (Event σ)) (i k : Nat),
      let r := (Course.start table host).run events
      let after := (r.next (.step i)).now.cache
      r.now.callers[i]? = some ⟨name, .publishing k (.error .crash)⟩ →
      ∃ before : List Attempt, r.attempts name = ⟨name, k, .error .crash⟩ :: before ∧
        after.notes name = Attempt.notes before ∧
        Indistinguishable name after (after.setSlot name (.after before)) := by
  refine ⟨fun c w question hc hfree hcrash => ?_, fun host events i k hi =>
    indistinguishable_of_crash (Course.sound_run table host events) hi⟩
  obtain ⟨earlier, hsplit, hfails⟩ := Question.exists_before_failure hcrash
  have hkept : ∀ x ∈ earlier, (question.reply get (c, w)).2.1.Keeps x.1 (.ok x.2) := by
    intro x hx
    refine keeps_of_mem_exchanges ?_
    rw [hsplit]
    exact List.mem_append_left _ (List.mem_map_of_mem hx)
  have hbefore : (afterValues get earlier (c, w)).1.Ready table name :=
    Ready.replies ⟨hc, hfree⟩ _ w
  obtain ⟨run, hsymbol, houtcome, hworld, hready, hnotes, hvalue, hsame⟩ :=
    hbefore.exists_of_crash hfails
  have hconsistent := hready.reachable.consistent
  -- A value of the name itself would have been kept, and then nothing could have crashed.
  have hother : ∀ x ∈ earlier, x.1 ≠ name := by
    rintro ⟨n, v⟩ hx rfl
    exact hvalue v (hkept _ hx).2
  refine ⟨run, earlier, hsymbol, hsplit, houtcome, hworld, fun x hx => ?_, ?_, hsame, ?_,
    fun later => ?_⟩
  · have hx' := (hkept x hx).2
    exact (hconsistent.used_iff x.1 x.2 (hx' ▸ nofun)).mpr hx'
  · rw [hnotes, notes_afterValues hother]
  · refine Option.eq_none_iff_forall_ne_some.mpr fun v hv => hvalue v ?_
    exact (hconsistent.used_iff name v hready.free).mp hv
  · have hlater := hready.replies later (question.reply get (c, w)).2.2
    refine servesAnew hlater.reachable.consistent ?_ hlater.free _
    rw [hlater.reachable.table_eq, hsymbol]

/-- A table of a number and of a script that fails, crashes and then gives a value. -/
def tripping : Table Counts :=
  (NameMap.empty.insert "x" (Script.symbol 0 [.failure "down", .crash, .value (.integer 1)])).insert
    "y" (.value (.integer 2))

/-- After a request for `x` that has failed, `y = 2 and x = 1` crashes at `x`. The slot has become
vacant, and has counted the attempt, but nobody can tell; `y` is recorded, `x` counts as failed as
before, and the next request for it gets a value. -/
theorem crash_leaves_no_trace_tripping :
    let failed := get "x" (new tripping, ⟨[], []⟩)
    let question : Question := .truth
      (.join (.one (.comparison ⟨.symbol "y", .equal, .literal (.integer 2)⟩)) .and
        (.comparison ⟨.symbol "x", .equal, .literal (.integer 1)⟩))
    let after := (question.reply get failed.2).2
    failed.2.1.slot "x" = ⟨1, .failed 1 (.resolver "x" "down")⟩ ∧
      after.1.slot "x" = ⟨2, .vacant⟩ ∧
      (∃ earlier, Indistinguishable "x" after.1 (afterValues get earlier failed.2).1 ∧
        ∀ x ∈ earlier, after.1.used.get? x.1 = some x.2) ∧
      after.1.notes "x" = (none, some ()) ∧
      get "x" after = (.ok (.integer 1), (get "x" after).2.1, ⟨[3], ["x", "x", "x"]⟩) := by
  intro failed question after
  have hfailed : failed.2.1.Reachable tripping := (reachable_new tripping []).get ⟨[], []⟩ "x"
  have hslot : failed.2.1.slot "x" = ⟨1, .failed 1 (.resolver "x" "down")⟩ := rfl
  have hexchanges : question.exchanges get failed.2 =
      [("y", .ok (.integer 2)), ("x", .error .crash)] := rfl
  obtain ⟨run, earlier, -, -, -, -, hrecorded, hnotes, hsame, -⟩ :=
    (crash_leaves_no_trace tripping "x").1 failed.2.1 failed.2.2 question hfailed
      (by simp [hslot]) (by simp [hexchanges])
  exact ⟨hslot, rfl, ⟨earlier, hsame, hrecorded⟩, hnotes.trans rfl, rfl⟩

end Cache

end FilterLang
