import FilterLang.CommandLine.Arguments
import FilterLang.Proofs.Expr.RoundTrip
import FilterLang.Proofs.Json.Finite
import Mathlib.Logic.Relation

/-! What arguments can settle. They settle definitions, the file, flags and the expression one step at
a time, and whatever a step keeps holds of what is read in the end. So a definition always comes
from an argument, and its value has a written form. The flag for the cache changes nothing but
itself: every other argument settles with it what it settles without it, so that the flag can be put
in front of arguments that do not have it. -/

namespace FilterLang

theorem map_eq_ok_iff {ε α β : Type} {x : Except ε α} {f : α → β} {b : β} :
    x.map f = .ok b ↔ ∃ a, x = .ok a ∧ f a = b := by
  cases x <;> simp [Except.map]

theorem bind_eq_ok_iff {ε α β : Type} {x : Except ε α} {f : α → Except ε β} {b : β} :
    x.bind f = .ok b ↔ ∃ a, x = .ok a ∧ f a = .ok b := by
  cases x <;> simp [Except.bind]

/-- A scalar without infinity and NaN is a value with a written form. -/
theorem Value.writable_of_ofJson? {j : Json} {v : Value} (hj : j.IsFinite)
    (h : Value.ofJson? j = some v) : v.Writable := by
  cases hj with
  | real => cases h; exact ⟨_, _, rfl⟩
  | integer => cases h; trivial
  | boolean => cases h; trivial
  | text => cases h; trivial
  | null => cases h
  | array => cases h
  | object => cases h

namespace CommandLine

theorem writable_valueOf (text : String) : (valueOf text).Writable := by
  rw [valueOf]
  cases hv : (Json.read? text).bind Value.ofJson? with
  | none => trivial
  | some v =>
    obtain ⟨j, hj, hvalue⟩ := Option.bind_eq_some_iff.mp hv
    exact Value.writable_of_ofJson? (Json.isFinite_of_read? hj) hvalue

theorem Definition.writable_of_read {argument : String} {d : Definition}
    (h : Definition.read argument = .ok d) : d.value.Writable := by
  simp only [Definition.read] at h
  split at h
  · cases h
  · split at h
    · cases h
    · cases h
      exact writable_valueOf _

/-! ### Steps of settling -/

/-- One more definition, file, flag or expression is settled. -/
inductive Options.Settles (o : Options) : Options → Prop
  | definition {argument : String} {d : Definition} : Definition.read argument = .ok d →
    Settles o { o with definitions := o.definitions ++ [d] }
  | file {path : String} : o.file = .none → path ≠ "" → Settles o { o with file := some path }
  | list : o.list = false → Settles o { o with list := true }
  | cached : o.cached = false → Settles o { o with cached := true }
  | expression {e : String} : Settles o { o with expression := some e }

theorem Options.settles_of_add {o r : Options} {option : ValueOption} {value : String}
    (h : o.add option value = .ok r) : o.Settles r := by
  cases option with
  | symbol =>
    simp only [add] at h
    split at h
    next d hd =>
      cases h
      exact .definition hd
    next => cases h
  | file =>
    simp only [add] at h
    split at h
    next => cases h
    next hfile =>
      split at h
      next => cases h
      next hvalue =>
        cases h
        exact .file (by simpa using hfile) hvalue

theorem Options.settles_of_set {o r : Options} {f : Flag} (h : o.set f = .ok r) : o.Settles r := by
  cases f with
  | list =>
    simp only [set] at h
    split at h
    next => cases h
    next hlist =>
      cases h
      exact .list (by simpa using hlist)
  | cached =>
    simp only [set] at h
    split at h
    next => cases h
    next hcached =>
      cases h
      exact .cached (by simpa using hcached)
  | help => cases h
  | version => cases h

namespace Progress

open Options (Settles)

variable {p q : Progress}

theorem settles_of_settle (h : p.settle = .ok q) :
    Relation.ReflTransGen Settles p.settled q.settled := by
  rw [settle] at h
  split at h
  · cases h
    exact .refl
  · cases h
  · obtain ⟨o, ho, rfl⟩ := map_eq_ok_iff.mp h
    exact .single (Options.settles_of_add ho)

theorem settles_of_option {option : ValueOption} {attached : Option String}
    (h : p.option option attached = .ok q) :
    Relation.ReflTransGen Settles p.settled q.settled := by
  obtain ⟨r, hr, h⟩ := bind_eq_ok_iff.mp h
  have hsettle := settles_of_settle hr
  cases attached with
  | none =>
    cases h
    exact hsettle
  | some value =>
    obtain ⟨o, ho, rfl⟩ := map_eq_ok_iff.mp h
    exact hsettle.tail (Options.settles_of_add ho)

theorem settles_of_flag {f : Flag} (h : p.flag f = .ok q) :
    Relation.ReflTransGen Settles p.settled q.settled := by
  obtain ⟨r, hr, h⟩ := bind_eq_ok_iff.mp h
  obtain ⟨o, ho, rfl⟩ := map_eq_ok_iff.mp h
  exact (settles_of_settle hr).tail (Options.settles_of_set ho)

/-- What a long option is does not depend on the arguments before it. -/
theorem long_cases (cs : List Char) :
    (∃ e, ∀ p : Progress, p.long cs = .error e) ∨
    (∃ option attached, ∀ p : Progress, p.long cs = p.option option attached) ∨
    ∃ f, ∀ p : Progress, p.long cs = p.flag f := by
  simp only [long]
  rcases longOption? (String.ofList (cs.takeWhile (· ≠ '='))) with _ | option | f
  · exact .inl ⟨_, fun p => rfl⟩
  · exact .inr (.inl ⟨_, _, fun p => rfl⟩)
  · rcases cs.dropWhile (· ≠ '=') with _ | ⟨c, value⟩
    · exact .inr (.inr ⟨f, fun p => rfl⟩)
    · exact .inl ⟨_, fun p => rfl⟩

theorem settles_of_long {cs : List Char} (h : p.long cs = .ok q) :
    Relation.ReflTransGen Settles p.settled q.settled := by
  rcases long_cases cs with ⟨e, hlong⟩ | ⟨option, attached, hlong⟩ | ⟨f, hlong⟩
  · cases (hlong p).symm.trans h
  · exact settles_of_option ((hlong p).symm.trans h)
  · exact settles_of_flag ((hlong p).symm.trans h)

theorem settles_of_short {cs : List Char} (h : p.short cs = .ok q) :
    Relation.ReflTransGen Settles p.settled q.settled := by
  induction cs generalizing p with
  | nil =>
    cases h
    exact .refl
  | cons c rest ih =>
    rw [short] at h
    split at h
    · cases h
    · obtain ⟨r, hr, h⟩ := bind_eq_ok_iff.mp h
      exact (settles_of_flag hr).trans (ih h)
    · split at h <;> exact settles_of_option h

theorem settles_of_plain {argument : String} (h : p.plain argument = .ok q) :
    Relation.ReflTransGen Settles p.settled q.settled := by
  rw [plain] at h
  split at h
  · cases h
    exact .refl
  · split at h
    · cases h
    · obtain ⟨r, hr, rfl⟩ := map_eq_ok_iff.mp h
      exact (settles_of_settle hr).tail .expression

/-- What an argument is does not depend on those before it, but for the end of the options. -/
theorem take_cases (argument : String) :
    (∀ p : Progress, p.take argument = p.plain argument) ∨
    (∀ p : Progress, p.ended = false → p.take argument = .ok { p with ended := true }) ∨
    (∃ cs, ∀ p : Progress, p.ended = false → p.take argument = p.long cs) ∨
    ∃ cs, ∀ p : Progress, p.ended = false → p.take argument = p.short cs := by
  rcases hcs : argument.toList with _ | ⟨c, rest⟩
  · exact .inl fun p => by simp [take, hcs]
  · by_cases hc : c = '-'
    · subst hc
      rcases rest with _ | ⟨d, rest⟩
      · exact .inl fun p => by simp [take, hcs]
      · by_cases hd : d = '-'
        · subst hd
          rcases rest with _ | ⟨e, rest⟩
          · exact .inr (.inl fun p hp => by simp [take, hcs, hp])
          · exact .inr (.inr (.inl ⟨e :: rest, fun p hp => by simp [take, hcs, hp]⟩))
        · exact .inr (.inr (.inr ⟨d :: rest, fun p hp => by simp [take, hcs, hp, hd]⟩))
    · exact .inl fun p => by simp [take, hcs, hc]

theorem take_eq_plain {argument : String} (hp : p.ended = true) :
    p.take argument = p.plain argument := by
  rw [take, if_pos hp]

theorem settles_of_take {argument : String} (h : p.take argument = .ok q) :
    Relation.ReflTransGen Settles p.settled q.settled := by
  cases hp : p.ended with
  | true => exact settles_of_plain ((take_eq_plain hp).symm.trans h)
  | false =>
    rcases take_cases argument with hplain | hend | ⟨cs, hlong⟩ | ⟨cs, hshort⟩
    · exact settles_of_plain ((hplain p).symm.trans h)
    · cases (hend p hp).symm.trans h
      exact .refl
    · exact settles_of_long ((hlong p hp).symm.trans h)
    · exact settles_of_short ((hshort p hp).symm.trans h)

/-- Reading arguments is settling one thing after the other. -/
theorem settles_of_foldlM {arguments : List String} (h : arguments.foldlM take p = .ok q) :
    Relation.ReflTransGen Settles p.settled q.settled := by
  induction arguments generalizing p with
  | nil =>
    cases h
    exact .refl
  | cons argument rest ih =>
    rw [List.foldlM_cons] at h
    obtain ⟨r, hr, h⟩ := bind_eq_ok_iff.mp h
    exact (settles_of_take hr).trans (ih h)

end Progress

theorem read_eq_ok_iff {arguments : List String} {c : Command} :
    read arguments = .ok c ↔ ∃ p q e, arguments.foldlM Progress.take .start = .ok p ∧
      p.settle = .ok q ∧ q.settled.expression = some e ∧
      c = ⟨q.settled.definitions, q.settled.file, q.settled.list, q.settled.cached, e⟩ := by
  rw [read]
  constructor
  · intro h
    obtain ⟨p, hp, h⟩ := bind_eq_ok_iff.mp h
    obtain ⟨q, hq, h⟩ := bind_eq_ok_iff.mp h
    split at h
    next e he =>
      cases h
      exact ⟨p, q, e, hp, hq, he, rfl⟩
    next => cases h
  · rintro ⟨p, q, e, hp, hq, he, rfl⟩
    refine bind_eq_ok_iff.mpr ⟨p, hp, bind_eq_ok_iff.mpr ⟨q, hq, ?_⟩⟩
    simp only [he]

theorem settles_of_read {arguments : List String} {c : Command} (h : read arguments = .ok c) :
    ∃ o, Relation.ReflTransGen Options.Settles .none o ∧ o.expression = some c.expression ∧
      c = ⟨o.definitions, o.file, o.list, o.cached, c.expression⟩ := by
  obtain ⟨p, q, e, hp, hq, he, rfl⟩ := read_eq_ok_iff.mp h
  exact ⟨q.settled, (Progress.settles_of_foldlM hp).trans (Progress.settles_of_settle hq), he, rfl⟩

/-! ### Definitions -/

/-- Every definition comes from an argument. -/
theorem exists_read_of_mem_definitions {arguments : List String} {c : Command}
    (h : read arguments = .ok c) :
    ∀ d ∈ c.definitions, ∃ argument, Definition.read argument = .ok d := by
  obtain ⟨o, ho, -, hc⟩ := settles_of_read h
  rw [hc]
  clear hc h
  induction ho with
  | refl => exact nofun
  | tail _ hlast ih =>
    cases hlast with
    | definition hread =>
      intro d hd
      rcases List.mem_append.mp hd with hd | hd
      · exact ih d hd
      · obtain rfl := List.mem_singleton.mp hd
        exact ⟨_, hread⟩
    | file => exact ih
    | list => exact ih
    | cached => exact ih
    | expression => exact ih

theorem writable_of_mem_definitions {arguments : List String} {c : Command}
    (h : read arguments = .ok c) : ∀ d ∈ c.definitions, d.value.Writable := by
  intro d hd
  obtain ⟨argument, hargument⟩ := exists_read_of_mem_definitions h d hd
  exact Definition.writable_of_read hargument

/-! ### The flag for the cache -/

/-- The options with the flag for the cache. -/
def Options.enable (o : Options) : Options := { o with cached := true }

/-- The flag stays once it is set. -/
theorem Options.cached_of_settles {o r : Options} (h : Relation.ReflTransGen Settles o r)
    (hr : r.cached = false) : o.cached = false := by
  induction h with
  | refl => exact hr
  | tail _ hlast ih =>
    cases hlast with
    | cached => cases hr
    | _ => exact ih hr

theorem Options.add_enable (o : Options) (option : ValueOption) (value : String) :
    o.enable.add option value = (o.add option value).map enable := by
  cases option with
  | symbol =>
    simp only [add]
    cases Definition.read value <;> rfl
  | file =>
    obtain ⟨ds, file, list, cached, e⟩ := o
    cases file with
    | some path => rfl
    | none => by_cases hvalue : value = "" <;> simp [add, enable, hvalue, Except.map]

theorem Options.set_enable (o : Options) {f : Flag} (hf : f ≠ .cached) :
    o.enable.set f = (o.set f).map enable := by
  cases f with
  | list =>
    obtain ⟨ds, file, list, cached, e⟩ := o
    cases list <;> rfl
  | cached => exact absurd rfl hf
  | help => rfl
  | version => rfl

namespace Progress

/-- The progress with the flag for the cache settled. -/
def enable (p : Progress) : Progress := { p with settled := p.settled.enable }

theorem settle_enable (p : Progress) : p.enable.settle = p.settle.map enable := by
  obtain ⟨o, pending, ended⟩ := p
  rcases pending with _ | ⟨option, _ | value⟩
  · rfl
  · rfl
  · simp only [settle, enable, Options.add_enable]
    cases o.add option value <;> rfl

theorem option_enable (p : Progress) (option : ValueOption) (attached : Option String) :
    p.enable.option option attached = (p.option option attached).map enable := by
  rw [Progress.option, Progress.option, settle_enable]
  cases p.settle with
  | error e => rfl
  | ok r =>
    cases attached with
    | none => rfl
    | some value =>
      simp only [Except.map, Except.bind, enable, Options.add_enable]
      cases r.settled.add option value <;> rfl

theorem flag_enable (p : Progress) {f : Flag} (hf : f ≠ .cached) :
    p.enable.flag f = (p.flag f).map enable := by
  rw [flag, flag, settle_enable]
  cases p.settle with
  | error e => rfl
  | ok r =>
    simp only [Except.map, Except.bind, enable, Options.set_enable _ hf]
    cases r.settled.set f <;> rfl

theorem cached_of_flag {p q : Progress} (h : p.flag .cached = .ok q) :
    q.settled.cached = true := by
  obtain ⟨r, -, h⟩ := bind_eq_ok_iff.mp h
  obtain ⟨o, ho, rfl⟩ := map_eq_ok_iff.mp h
  simp only [Options.set] at ho
  split at ho
  · cases ho
  · cases ho
    rfl

theorem shortOption?_ne_cached (c : Char) : shortOption? c ≠ some (.inr .cached) := by
  unfold shortOption?
  split <;> simp

theorem short_enable (p : Progress) (cs : List Char) :
    p.enable.short cs = (p.short cs).map enable := by
  induction cs generalizing p with
  | nil => rfl
  | cons c rest ih =>
    have hne := shortOption?_ne_cached c
    rw [short, short]
    generalize shortOption? c = found at hne ⊢
    rcases found with _ | option | f
    · rfl
    · rcases rest with _ | ⟨d, value⟩
      · exact p.option_enable option none
      · simp only
        split <;> exact p.option_enable option _
    · have hf : f ≠ .cached := fun hf => hne (hf ▸ rfl)
      simp only [p.flag_enable hf]
      cases p.flag f with
      | error e => rfl
      | ok q => exact ih q

theorem plain_enable (p : Progress) (argument : String) :
    p.enable.plain argument = (p.plain argument).map enable := by
  have hlast : ∀ p : Progress,
      (if p.enable.settled.expression.isSome then .error .unknownArgument
        else p.enable.settle.map fun q =>
          { q with settled := { q.settled with expression := some argument } }) =
      Except.map enable (if p.settled.expression.isSome then .error .unknownArgument
        else p.settle.map fun q =>
          { q with settled := { q.settled with expression := some argument } }) := by
    intro p
    rw [settle_enable]
    by_cases he : p.settled.expression.isSome
    · rw [if_pos he]
      exact if_pos he
    · rw [if_neg he]
      refine (if_neg he).trans ?_
      cases p.settle <;> rfl
  obtain ⟨o, pending, ended⟩ := p
  cases ended with
  | true => exact hlast ⟨o, pending, true⟩
  | false =>
    rcases pending with _ | ⟨option, _ | value⟩
    · exact hlast ⟨o, none, false⟩
    · rfl
    · exact hlast ⟨o, some ⟨option, some value⟩, false⟩

variable {p q : Progress}

/-- An argument that does not set the flag is taken in the same way with the flag set. -/
theorem take_enable {argument : String} (h : p.take argument = .ok q)
    (hq : q.settled.cached = false) : p.enable.take argument = .ok q.enable := by
  have hsame : p.enable.take argument = (p.take argument).map enable := by
    cases hp : p.ended with
    | true =>
      rw [take_eq_plain hp, take_eq_plain (show p.enable.ended = true from hp), plain_enable]
    | false =>
      have hp' : p.enable.ended = false := hp
      rcases take_cases argument with hplain | hend | ⟨cs, hlong⟩ | ⟨cs, hshort⟩
      · rw [hplain, hplain, plain_enable]
      · rw [hend p hp, hend p.enable hp']
        rfl
      · rw [hlong p hp] at h
        rw [hlong p hp, hlong p.enable hp']
        rcases long_cases cs with ⟨e, hlong⟩ | ⟨option, attached, hlong⟩ | ⟨f, hlong⟩
        · cases (hlong p).symm.trans h
        · rw [hlong, hlong, option_enable]
        · have hf : f ≠ .cached := by
            rintro rfl
            rw [hlong] at h
            rw [cached_of_flag h] at hq
            cases hq
          rw [hlong, hlong, flag_enable p hf]
      · rw [hshort p hp, hshort p.enable hp', short_enable]
  rw [hsame, h]
  rfl

theorem foldlM_enable {arguments : List String} (h : arguments.foldlM take p = .ok q)
    (hq : q.settled.cached = false) : arguments.foldlM take p.enable = .ok q.enable := by
  induction arguments generalizing p with
  | nil =>
    cases h
    rfl
  | cons argument rest ih =>
    rw [List.foldlM_cons] at h ⊢
    obtain ⟨r, hr, h⟩ := bind_eq_ok_iff.mp h
    have hcached := Options.cached_of_settles (settles_of_foldlM h) hq
    exact bind_eq_ok_iff.mpr ⟨r.enable, take_enable hr hcached, ih h⟩

end Progress

/-- The flag can be put in front of arguments that do not have it. -/
theorem read_cached {arguments : List String} {c : Command} (h : read arguments = .ok c)
    (hc : c.cached = false) : read ("--cached" :: arguments) = .ok { c with cached := true } := by
  obtain ⟨p, q, e, hp, hq, he, rfl⟩ := read_eq_ok_iff.mp h
  have hpcached := Options.cached_of_settles (Progress.settles_of_settle hq) hc
  refine read_eq_ok_iff.mpr ⟨p.enable, q.enable, e, ?_, ?_, he, rfl⟩
  · have hfirst : Progress.start.take "--cached" = .ok Progress.start.enable := rfl
    rw [List.foldlM_cons]
    exact bind_eq_ok_iff.mpr ⟨_, hfirst, Progress.foldlM_enable hp hpcached⟩
  · rw [Progress.settle_enable, hq]
    rfl

end CommandLine

end FilterLang
