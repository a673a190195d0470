import FilterLang.Proofs.Cache.Transparent
import FilterLang.Session

/-! What is done in a session. Entries are put into its table, caches are made from the table as it
is, and the table and the caches are asked for values and for the truth of chains; between that the
host may change its state. Requests of a single caller come down to such deeds. A cache is changed
only by what it is asked, so what every request to it keeps lasts as long as the session. -/

namespace FilterLang

variable {σ : Type}

/-- Something that is done in a session: an entry or several are put into the table, a cache is made
from it, the table or a cache is asked, or the host changes its state. -/
inductive Deed (σ : Type) where
  | insert (name : String) (symbol : Symbol σ)
  | extend (entries : List (String × Symbol σ))
  | cache
  | ask (place : Option Nat) (question : Question)
  | host (state : σ)

/-- The answer of a session that a reply is. -/
def Reply.answer : Reply → Answer σ
  | .value result => .value result
  | .truth result => .truth (result.mapError .failure)

/-- What a deed asks the cache with a number. -/
def Deed.question? (i : Nat) : Deed σ → Option Question
  | .ask (some j) question => if j = i then some question else none
  | _ => none

/-- What a request of a single caller does; a text that cannot be read asks for nothing. -/
def Request.deeds? : Request σ → Option (List (Deed σ))
  | .insert name symbol => some [.insert name symbol]
  | .extend entries => some [.extend entries]
  | .info _ => some []
  | .cache => some [.cache]
  | .get name place => some [.ask place (.value name)]
  | .evaluate text place =>
    match parse text with
    | .ok tree => some [.ask place (.truth tree)]
    | .error _ => some []
  | .getTogether _ _ _ => none

namespace Session

/-- The session after a deed. A cache that there is not is not asked. -/
def next (s : Session σ) : Deed σ → Session σ
  | .insert name symbol => { s with table := s.table.insert name symbol }
  | .extend entries => { s with table := s.table.insertAll entries }
  | .cache => { s with caches := s.caches ++ [.new s.table] }
  | .ask none question => { s with world := (question.reply s.table.get s.world).2 }
  | .ask (some i) question =>
    match s.caches[i]? with
    | none => s
    | some c => s.put i (question.reply Cache.get (c, s.world)).2
  | .host state => { s with world := { s.world with host := state } }

/-- The session after a number of deeds. -/
def run (s : Session σ) (deeds : List (Deed σ)) : Session σ := deeds.foldl next s

/-- The session with an empty log, as the next request finds it. -/
def forget (s : Session σ) : Session σ := { s with world := { s.world with log := [] } }

section

variable {α : Type} {s : Session σ} {answer : α → Answer σ} {onTable : World σ → α × World σ}
  {onCache : Cache σ × World σ → α × Cache σ × World σ}

theorem snd_ask (question : Question)
    (htable : (onTable s.world).2 = (question.reply s.table.get s.world).2)
    (hcache : ∀ c, (onCache (c, s.world)).2 = (question.reply Cache.get (c, s.world)).2)
    (place : Option Nat) : (s.ask place answer onTable onCache).2 = s.next (.ask place question) := by
  cases place with
  | none => simp only [ask, next, htable]
  | some i =>
    simp only [ask, next]
    cases s.caches[i]? with
    | none => rfl
    | some c => simp only [hcache]

theorem put_self {i : Nat} {c : Cache σ} (hc : s.caches[i]? = some c) :
    s.put i (c, s.world) = s := by
  obtain ⟨hi, rfl⟩ := List.getElem?_eq_some_iff.mp hc
  simp [put]

theorem getElem?_put {i : Nat} {c : Cache σ} (hc : s.caches[i]? = some c)
    (state : Cache σ × World σ) : (s.put i state).caches[i]? = some state.1 :=
  List.getElem?_set_self (List.getElem?_eq_some_iff.mp hc).1

theorem snd_ask_of_silent (htable : (onTable s.world).2 = s.world)
    (hcache : ∀ c, (onCache (c, s.world)).2 = (c, s.world)) (place : Option Nat) :
    (s.ask place answer onTable onCache).2 = s := by
  cases place with
  | none => simp only [ask, htable]
  | some i =>
    simp only [ask]
    cases hi : s.caches[i]? with
    | none => rfl
    | some c => simp only [hcache, put_self hi]

end

/-- What a request of a single caller does to a session. -/
theorem snd_step {s : Session σ} {r : Request σ} {deeds : List (Deed σ)}
    (h : r.deeds? = some deeds) : (s.step r).2 = s.forget.run deeds := by
  cases r with
  | insert name symbol => cases h; rfl
  | extend entries => cases h; rfl
  | info name => cases h; rfl
  | cache => cases h; rfl
  | get name place =>
    cases h
    refine snd_ask (s := s.forget) (.value name) ?_ (fun c => ?_) place
    · rfl
    · rfl
  | evaluate text place =>
    simp only [Request.deeds?] at h
    split at h
    next tree htree =>
      cases h
      refine snd_ask (s := s.forget) (.truth tree) ?_ (fun c => ?_) place
      · simp only [evaluateText, htree, Question.reply]
        rfl
      · simp only [evaluateText, htree, Question.reply]
    next e htext =>
      cases h
      refine snd_ask_of_silent (s := s.forget) ?_ (fun c => ?_) place
      · simp only [evaluateText, htext]
      · simp only [evaluateText, htext]
  | getTogether name callers cache => cases h

/-- A request to a cache is answered by the reply of the cache. -/
theorem fst_step {s : Session σ} {r : Request σ} {i : Nat} {question : Question} {c : Cache σ}
    (h : r.deeds? = some [.ask (some i) question]) (hc : s.caches[i]? = some c) :
    (s.step r).1 = (question.reply Cache.get (c, s.forget.world)).1.answer := by
  have hasked : s.forget.caches[i]? = some c := hc
  cases r with
  | get name place =>
    cases h
    change (s.forget.ask (some i) _ _ _).1 = _
    simp only [ask, hasked, Question.reply, Reply.answer]
  | evaluate text place =>
    simp only [Request.deeds?] at h
    split at h
    next tree htree =>
      cases h
      change (s.forget.ask (some i) _ _ _).1 = _
      simp only [ask, hasked, evaluateText, htree, Question.reply, Reply.answer]
    next => cases h
  | _ => cases h

/-- A cache is changed by what it is asked, and by no other deed. -/
theorem getElem?_next {s : Session σ} {i : Nat} {c : Cache σ} (hc : s.caches[i]? = some c)
    (d : Deed σ) :
    (s.next d).caches[i]? = some ((d.question? i).elim c fun question =>
      (question.reply Cache.get (c, s.world)).2.1) := by
  cases d with
  | insert name symbol => exact hc
  | extend entries => exact hc
  | cache => exact List.getElem?_append_left (List.getElem?_eq_some_iff.mp hc).1 ▸ hc
  | host state => exact hc
  | ask place question =>
    cases place with
    | none => exact hc
    | some j =>
      by_cases hij : j = i
      · subst hij
        simp only [next, hc, getElem?_put hc, Deed.question?, ↓reduceIte, Option.elim_some]
      · simp only [Deed.question?, hij, ↓reduceIte, next, Option.elim_none]
        cases s.caches[j]? with
        | none => exact hc
        | some asked => simp [put, List.getElem?_set_ne hij, hc]

variable {P : Cache σ → Prop} (hP : ∀ name c w, P c → P (Cache.get name (c, w)).2.1)

include hP

theorem reply_keeps {c : Cache σ} (hc : P c) (question : Question) (w : World σ) :
    P (question.reply Cache.get (c, w)).2.1 := by
  cases question with
  | value name => exact hP name c w hc
  | truth tree =>
    simp only [Question.reply, ← tree.run_inquiry]
    exact tree.inquiry.run_keeps (P := fun s : Cache σ × World σ => P s.1)
      (fun name s hs => hP name s.1 s.2 hs) hc

/-- What every request to a cache keeps, every deed keeps. -/
theorem next_keeps {s : Session σ} {i : Nat} {c : Cache σ} (hc : s.caches[i]? = some c) (h : P c)
    (d : Deed σ) : ∃ c', (s.next d).caches[i]? = some c' ∧ P c' := by
  refine ⟨_, getElem?_next hc d, ?_⟩
  cases d.question? i with
  | none => exact h
  | some question => exact reply_keeps hP h question s.world

theorem run_keeps {s : Session σ} {i : Nat} {c : Cache σ} (hc : s.caches[i]? = some c) (h : P c)
    (deeds : List (Deed σ)) : ∃ c', (s.run deeds).caches[i]? = some c' ∧ P c' := by
  induction deeds generalizing s c with
  | nil => exact ⟨c, hc, h⟩
  | cons d deeds ih =>
    obtain ⟨c', hc', h'⟩ := next_keeps hP hc h d
    exact ih hc' h'

end Session

end FilterLang
