import FilterLang.Proofs.Cache.Deeds
import Mathlib.Data.List.Forall2

/-! Caches are isolated. A cache has a table of its own, slots and records, and shares with the rest
of its session nothing but the host's state. So what it replies and records is determined by its
table, by what it is asked, and by what its resolvers find of the host's state just before: if they
always give the same outcomes, then everything else can be left out of the session; and if they are
scripts, then it does not matter what else is done as long as the counts are the same. -/

namespace FilterLang

variable {σ : Type}

/-! ### Host states that resolvers do not tell apart -/

/-- In related states of the host every resolver of the table gives the same outcome, and it leaves
the states related. -/
def Table.Respects (t : Table σ) (R : σ → σ → Prop) : Prop :=
  ∀ name run, t.get? name = some (.resolver run) → ∀ host host', R host host' →
    (run host).1 = (run host').1 ∧ R (run host).2 (run host').2

namespace Table

variable {t : Table σ} {R : σ → σ → Prop} {name : String} {w w' : World σ}

theorem respects_eq (t : Table σ) : t.Respects (· = ·) := by
  rintro name run - host _ rfl
  exact ⟨rfl, rfl⟩

theorem IsSteady.respects (h : t.IsSteady) : t.Respects fun _ _ => True :=
  fun name run hrun host host' _ => ⟨h name run hrun host host', trivial⟩

theorem Respects.resolve (h : t.Respects R) {symbol : Symbol σ}
    (hsymbol : t.get? name = some symbol) (hw : R w.host w'.host) :
    (symbol.resolve name w).1 = (symbol.resolve name w').1 ∧
      R (symbol.resolve name w).2.host (symbol.resolve name w').2.host := by
  cases symbol with
  | value v => exact ⟨rfl, hw⟩
  | json data =>
    simp only [Symbol.resolve]
    split <;> exact ⟨rfl, hw⟩
  | resolver run =>
    obtain ⟨houtcome, hhost⟩ := h name run hsymbol _ _ hw
    exact ⟨congrArg (Outcome.answer name) houtcome, hhost⟩

end Table

/-- Every script has been called equally often. -/
def Counts.Agree (counts counts' : Counts) : Prop :=
  ∀ script, counts.calls script = counts'.calls script

/-- The entry is no resolver, or a script, or a resolver that always gives one value. -/
def Symbol.IsScripted : Symbol Counts → Prop
  | .resolver run =>
    (∃ script outcomes, Symbol.resolver run = Script.symbol script outcomes) ∨
      ∃ v, ∀ counts, run counts = (.value v, counts)
  | _ => True

/-- All resolvers of the table are scripts, or always give one value. -/
def Table.IsScripted (t : Table Counts) : Prop :=
  ∀ name symbol, t.get? name = some symbol → symbol.IsScripted

theorem Counts.Agree.tick {counts counts' : Counts} (h : counts.Agree counts') (script : Nat) :
    (counts.tick script).Agree (counts'.tick script) := by
  intro other
  by_cases hother : other = script
  · rw [hother, calls_tick, calls_tick, h script]
  · rw [calls_tick_of_ne hother, calls_tick_of_ne hother, h other]

theorem Table.IsScripted.respects {t : Table Counts} (h : t.IsScripted) :
    t.Respects Counts.Agree := by
  intro name run hrun counts counts' hcounts
  rcases h name _ hrun with ⟨script, outcomes, hscript⟩ | ⟨v, hv⟩
  · obtain rfl := Symbol.resolver.inj hscript
    exact ⟨congrArg (Script.outcome · outcomes) (hcounts script), hcounts.tick script⟩
  · rw [hv, hv]
    exact ⟨rfl, hcounts⟩

/-! ### What a cache shows -/

/-- What one sees of a request to a cache: the reply, and the records of the cache after it. -/
structure Sight where
  reply : Reply
  used : NameMap Value
  failed : NameMap Unit

/-- A request that a cache gets in a session: the host's state just before it, the question, and
what one sees of it. -/
structure Visit (σ : Type) where
  host : σ
  question : Question
  sight : Sight

namespace Cache

/-- What one sees of a question to the cache. -/
def sight (c : Cache σ) (w : World σ) (question : Question) : Sight :=
  let (reply, c, _) := question.reply get (c, w)
  ⟨reply, c.used, c.failed⟩

/-- What one sees of questions to the cache, each with the host's state just before it. -/
def sights (c : Cache σ) : List (σ × Question) → List Sight
  | [] => []
  | (host, question) :: later =>
    c.sight ⟨host, []⟩ question ::
      sights (question.reply get (c, ⟨host, []⟩)).2.1 later

end Cache

/-- Does the deed put entries into the table? -/
def Deed.fills : Deed σ → Bool
  | .insert _ _ => true
  | .extend _ => true
  | _ => false

namespace Session

/-- The request that a deed makes to the cache with a number, if it makes one. -/
def visit? (s : Session σ) (i : Nat) (d : Deed σ) : Option (Visit σ) :=
  (d.question? i).bind fun question =>
    s.caches[i]?.map fun c => ⟨s.world.host, question, c.sight s.world question⟩

/-- The requests that deeds make to the cache with a number, one after the other. -/
def visits (i : Nat) : List (Deed σ) → Session σ → List (Visit σ)
  | [], _ => []
  | d :: later, s => (s.visit? i d).toList ++ visits i later (s.next d)

/-- The requests to a cache that is made now, of those deeds that follow. -/
def shown (s : Session σ) (after : List (Deed σ)) : List (Visit σ) :=
  (s.next .cache).visits s.caches.length after

end Session

/-! ### A cache in host states that its resolvers do not tell apart -/

namespace Cache

/-- The same cache over a table, in related states of the host. -/
structure Alike (t : Table σ) (R : σ → σ → Prop) (s s' : Cache σ × World σ) : Prop where
  cache : s.1 = s'.1
  table : s.1.table = t
  host : R s.2.host s'.2.host

section

variable {t : Table σ} {R : σ → σ → Prop} {s s' : Cache σ × World σ} (ht : t.Respects R)

include ht

theorem Alike.get (hs : Alike t R s s') (name : String) :
    (get name s).1 = (get name s').1 ∧ Alike t R (Cache.get name s).2 (Cache.get name s').2 := by
  obtain ⟨c, w⟩ := s
  obtain ⟨d, w'⟩ := s'
  obtain ⟨hcache, rfl, hhost⟩ := hs
  obtain rfl : c = d := hcache
  simp only [Cache.get]
  cases hsymbol : c.table.get? name with
  | none => exact ⟨rfl, rfl, rfl, hhost⟩
  | some symbol =>
    simp only
    cases (c.slot name).look none with
    | answer result => exact ⟨rfl, rfl, rfl, hhost⟩
    | wait k => exact ⟨rfl, rfl, rfl, hhost⟩
    | begin k =>
      obtain ⟨houtcome, hafter⟩ := ht.resolve hsymbol hhost
      simp only [houtcome]
      exact ⟨trivial, rfl, c.table_settle name k _, hafter⟩

theorem Alike.reply (hs : Alike t R s s') (question : Question) :
    (question.reply Cache.get s).1 = (question.reply Cache.get s').1 ∧
      Alike t R (question.reply Cache.get s).2 (question.reply Cache.get s').2 :=
  question.reply_related (fun name _ _ h => h.get ht name) hs

theorem Alike.sight (hs : Alike t R s s') (question : Question) :
    s.1.sight s.2 question = s'.1.sight s'.2 question := by
  obtain ⟨hreply, hafter⟩ := hs.reply ht question
  simp only [Cache.sight, Prod.eta, hreply, hafter.cache]

/-- What a cache shows depends on its questions, and on the host's states as far as the resolvers
tell them apart. -/
theorem sights_related {c : Cache σ} (hc : c.table = t) {asked asked' : List (σ × Question)}
    (hhosts : List.Forall₂ (fun x x' => R x.1 x'.1) asked asked')
    (hquestions : asked.map Prod.snd = asked'.map Prod.snd) : c.sights asked = c.sights asked' := by
  induction hhosts generalizing c with
  | nil => rfl
  | @cons x x' asked asked' hhost _ ih =>
    obtain ⟨host, question⟩ := x
    obtain ⟨host', question'⟩ := x'
    obtain ⟨hquestion, hlater⟩ := List.cons.inj hquestions
    obtain rfl : question = question' := hquestion
    have hs : Alike t R (c, ⟨host, []⟩) (c, ⟨host', []⟩) := ⟨rfl, hc, hhost⟩
    obtain ⟨-, hafter⟩ := hs.reply ht question
    rw [sights, sights, hs.sight ht question, ← hafter.cache, ih hafter.table hlater]

end

end Cache

/-! ### A cache in its session -/

namespace Session

variable {s s' : Session σ} {i : Nat} {c : Cache σ}

/-- What one sees of a question to a cache is what the session answers to such a request, and the
records of the cache then. -/
theorem step_shows {r : Request σ} {question : Question}
    (h : r.deeds? = some [.ask (some i) question]) (hc : s.caches[i]? = some c) :
    (s.step r).1 = (c.sight s.world question).reply.answer ∧
      ∃ c', (s.step r).2.caches[i]? = some c' ∧ c'.used = (c.sight s.world question).used ∧
        c'.failed = (c.sight s.world question).failed := by
  have hs : Cache.Alike c.table (· = ·) (c, s.world) (c, s.forget.world) := ⟨rfl, rfl, rfl⟩
  rw [hs.sight c.table.respects_eq question, fst_step h hc, snd_step h]
  have hnext := getElem?_next (s := s.forget) hc (.ask (some i) question)
  simp only [Deed.question?, ↓reduceIte, Option.elim_some] at hnext
  exact ⟨rfl, _, hnext, rfl, rfl⟩

theorem questions_visits (hc : s.caches[i]? = some c) (deeds : List (Deed σ)) :
    (s.visits i deeds).map Visit.question = deeds.filterMap (Deed.question? i) := by
  induction deeds generalizing s c with
  | nil => rfl
  | cons d later ih =>
    rw [visits, List.map_append, ih (getElem?_next hc d), visit?, hc]
    cases hd : d.question? i with
    | none => simp [hd]
    | some question => simp [hd]

/-- What is seen of a cache in its session is what it shows by itself when it is asked the same in
the same states of the host. -/
theorem sights_visits (hc : s.caches[i]? = some c) (deeds : List (Deed σ)) :
    (s.visits i deeds).map Visit.sight =
      c.sights ((s.visits i deeds).map fun v => (v.host, v.question)) := by
  induction deeds generalizing s c with
  | nil => rfl
  | cons d later ih =>
    have hnext := ih (getElem?_next hc d)
    rw [visits, visit?, hc]
    cases hd : d.question? i with
    | none => simpa [hd] using hnext
    | some question =>
      have hs : Cache.Alike c.table (· = ·) (c, s.world) (c, ⟨s.world.host, []⟩) := ⟨rfl, rfl, rfl⟩
      have hsight := hs.sight c.table.respects_eq question
      have hafter := (hs.reply c.table.respects_eq question).2.cache
      simp only [hd, Option.elim_some] at hnext
      simp [Cache.sights, hnext, hsight, hafter]

theorem getElem?_next_cache (s : Session σ) :
    (s.next .cache).caches[s.caches.length]? = some (.new s.table) :=
  List.getElem?_concat_length

theorem questions_shown (s : Session σ) (after : List (Deed σ)) :
    (s.shown after).map Visit.question = after.filterMap (Deed.question? s.caches.length) :=
  questions_visits s.getElem?_next_cache after

/-- Two caches made from the same table show the same if they are asked the same, each time in states
of the host that the resolvers do not tell apart. -/
theorem sights_shown_related {R : σ → σ → Prop} {after after' : List (Deed σ)}
    (htable : s.table = s'.table) (hR : s.table.Respects R)
    (hquestions : after.filterMap (Deed.question? s.caches.length) =
      after'.filterMap (Deed.question? s'.caches.length))
    (hhosts : List.Forall₂ (fun v v' => R v.host v'.host) (s.shown after) (s'.shown after')) :
    (s.shown after).map Visit.sight = (s'.shown after').map Visit.sight := by
  rw [shown, shown, sights_visits s.getElem?_next_cache, sights_visits s'.getElem?_next_cache,
    ← htable]
  refine Cache.sights_related hR rfl ?_ ?_
  · exact List.forall₂_map_left_iff.mpr (List.forall₂_map_right_iff.mpr hhosts)
  · rw [List.map_map, List.map_map]
    exact (questions_shown s after).trans (hquestions.trans (questions_shown s' after').symm)

/-- If the resolvers are steady, the states of the host do not matter. -/
theorem sights_shown_of_isSteady {after after' : List (Deed σ)} (htable : s.table = s'.table)
    (hsteady : s.table.IsSteady)
    (hquestions : after.filterMap (Deed.question? s.caches.length) =
      after'.filterMap (Deed.question? s'.caches.length)) :
    (s.shown after).map Visit.sight = (s'.shown after').map Visit.sight := by
  refine sights_shown_related htable hsteady.respects hquestions ?_
  have hsame : List.Forall₂ Eq ((s.shown after).map Visit.question)
      ((s'.shown after').map Visit.question) := by
    rw [List.forall₂_eq_eq_eq, questions_shown, questions_shown, hquestions]
  rw [List.forall₂_map_left_iff, List.forall₂_map_right_iff] at hsame
  exact hsame.imp fun _ _ _ => trivial

/-! ### Deeds left out -/

theorem table_next_of_not_fills {d : Deed σ} (h : d.fills = false) (s : Session σ) :
    (s.next d).table = s.table := by
  cases d with
  | insert name symbol => cases h
  | extend entries => cases h
  | cache => rfl
  | host state => rfl
  | ask place question =>
    cases place with
    | none => rfl
    | some j =>
      simp only [next]
      split <;> rfl

theorem table_next_congr (h : s.table = s'.table) (d : Deed σ) :
    (s.next d).table = (s'.next d).table := by
  cases hd : d.fills with
  | false => rw [table_next_of_not_fills hd, table_next_of_not_fills hd, h]
  | true =>
    cases d with
    | insert name symbol => simp only [next, h]
    | extend entries => simp only [next, h]
    | _ => cases hd

/-- A session comes to the same table without deeds that put nothing into it. -/
theorem table_run_filter {deeds : List (Deed σ)} {keep : Deed σ → Bool}
    (hkeep : ∀ d ∈ deeds, d.fills = true → keep d = true) (h : s.table = s'.table) :
    (s.run deeds).table = (s'.run (deeds.filter keep)).table := by
  induction deeds generalizing s s' with
  | nil => exact h
  | cons d deeds ih =>
    obtain ⟨hd, hdeeds⟩ := List.forall_mem_cons.mp hkeep
    cases hkept : keep d with
    | true =>
      rw [List.filter_cons_of_pos hkept]
      exact ih hdeeds (table_next_congr h d)
    | false =>
      have hfills : d.fills = false := Bool.eq_false_iff.mpr fun hfills => by
        rw [hd hfills] at hkept
        cases hkept
      rw [List.filter_cons_of_neg (by simp [hkept])]
      exact ih hdeeds ((table_next_of_not_fills hfills s).trans h)

theorem questions_asking (i : Nat) (questions : List Question) :
    (questions.map (Deed.ask (some i) : Question → Deed σ)).filterMap (Deed.question? i) =
      questions := by
  simp [List.filterMap_map, Function.comp_def, Deed.question?]

/-- Take a cache that is made in a session from a table whose resolvers are steady. It shows the same
in the session from which all else has been deleted that was done after it was made, and of what was
done before, anything but the putting of entries into the table. Take two sessions of scripts in
which caches are made from the same table and asked the same. They show the same if each question
finds every script called equally often, whatever else is done. -/
theorem isolated :
    (∀ {σ : Type} (table : Table σ) (host : σ) (before after : List (Deed σ))
        (keep : Deed σ → Bool),
      let s := (start table host).run before
      let s' := (start table host).run (before.filter keep)
      let questions := after.filterMap (Deed.question? s.caches.length)
      s.table.IsSteady → (∀ d ∈ before, d.fills = true → keep d = true) →
        (s.shown after).map Visit.sight =
          (s'.shown (questions.map (.ask (some s'.caches.length)))).map Visit.sight) ∧
    ∀ (table table' : Table Counts) (host host' : Counts)
        (before before' after after' : List (Deed Counts)),
      let s := (start table host).run before
      let s' := (start table' host').run before'
      s.table.IsScripted → s.table = s'.table →
      after.filterMap (Deed.question? s.caches.length) =
        after'.filterMap (Deed.question? s'.caches.length) →
      List.Forall₂ (fun v v' => v.host.Agree v'.host) (s.shown after) (s'.shown after') →
        (s.shown after).map Visit.sight = (s'.shown after').map Visit.sight := by
  refine ⟨fun table host before after keep => ?_,
    fun table table' host host' before before' after after' => ?_⟩
  · intro s s' questions hsteady hkeep
    exact sights_shown_of_isSteady (table_run_filter hkeep rfl) hsteady
      (questions_asking _ questions).symm
  · intro s s' hscripted htable hquestions hhosts
    exact sights_shown_related htable hscripted.respects hquestions hhosts

/-- A table with a script that always fails. -/
def failing : Table Counts := NameMap.empty.insert "y" (Script.symbol 0 [.failure "down"])

/-- Another cache fails at `y`, and the table gets an entry for `x`. -/
def beforehand : List (Deed Counts) :=
  [.cache, .ask (some 0) (.value "y"), .insert "x" (.value (.integer 1))]

/-- The entry for `x` is replaced, and both caches and the table are asked. -/
def afterwards : List (Deed Counts) :=
  [.insert "x" (.value (.integer 2)), .ask (some 1) (.value "x"), .ask (some 0) (.value "y"),
    .ask none (.value "x"), .ask (some 1) (.value "y")]

/-- A table with a script that fails once. -/
def failingOnce : Table Counts :=
  NameMap.empty.insert "x" (Script.symbol 0 [.failure "down", .value (.integer 1)])

/-- The second one of two caches finds `x` to be 1, whatever the table says later, also if the first
one is not asked. A script that two sessions share in different ways has been called equally often
before each question to a cache, which fails at first and then has a value. -/
theorem isolated_failing :
    let s := (start failing []).run beforehand
    let s' := (start failing []).run (beforehand.filter fun d => (d.question? 0).isNone)
    let shared := (start failingOnce []).run [.cache]
    let own := start failingOnce []
    let after : List (Deed Counts) := [.ask (some 1) (.value "x"), .ask (some 0) (.value "x"),
      .insert "x" (.value (.integer 5)), .ask (some 1) (.value "x")]
    let after' : List (Deed Counts) := [.ask (some 0) (.value "x"), .ask none (.value "x"),
      .ask (some 0) (.value "x")]
    s.table.IsSteady ∧
      (s.shown afterwards).map Visit.sight =
        (s'.shown [.ask (some 1) (.value "x"), .ask (some 1) (.value "y")]).map Visit.sight ∧
      shared.table.IsScripted ∧ (shared.shown after).map Visit.host = [[], [2]] ∧
      (own.shown after').map Visit.host = [[], [2]] ∧
      (shared.shown after).map Visit.sight = (own.shown after').map Visit.sight ∧
      (own.shown after').map Visit.sight =
        [⟨.value (.error (.error (.resolver "x" "down"))), .empty, NameMap.empty.insert "x" ()⟩,
          ⟨.value (.ok (.integer 1)), NameMap.empty.insert "x" (.integer 1), .empty⟩] := by
  intro s s' shared own after after'
  have hsteady : s.table.IsSteady := by
    intro name run hrun host host'
    rw [show s.table = failing.insert "x" (.value (.integer 1)) from rfl, failing,
      NameMap.get?_insert, NameMap.get?_insert] at hrun
    split at hrun
    · cases hrun
    · split at hrun <;> cases hrun
      simp only [Script.outcome]
  have hscripted : shared.table.IsScripted := by
    intro name symbol hsymbol
    rw [show shared.table = failingOnce from rfl, failingOnce, NameMap.get?_insert] at hsymbol
    split at hsymbol <;> cases hsymbol
    exact .inl ⟨0, _, rfl⟩
  have hkeep : ∀ d ∈ beforehand, d.fills = true → (d.question? 0).isNone = true := by
    simp [beforehand, Deed.fills, Deed.question?]
  have halone := isolated.1 failing [] beforehand afterwards _ hsteady hkeep
  have hshared := isolated.2 failingOnce failingOnce [] [] [.cache] [] after after' hscripted rfl rfl
    (.cons (fun _ => rfl) (.cons (fun _ => rfl) .nil))
  exact ⟨hsteady, halone, hscripted, rfl, rfl, hshared, rfl⟩

end Session

end FilterLang
