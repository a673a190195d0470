import FilterLang.Proofs.CommandLine.Arguments

/-! Command lines as they are written. Arguments that are accepted are options with their values,
flags and an expression, each of which can be written in a few ways; behind two dashes the
expression alone may follow. Reading such arguments takes these items one after the other. -/

namespace FilterLang.CommandLine

/-- The letter of an option with its dash. -/
def ValueOption.short : ValueOption → String
  | .symbol => "-s"
  | .file => "-f"

/-- The long name of an option with its dashes. -/
def ValueOption.long : ValueOption → String
  | .symbol => "--symbol"
  | .file => "--symbols-file"

/-- An option with its value, a flag, or the expression. -/
inductive Item where
  | option (option : ValueOption) (value : String)
  | list
  | cached
  | expression (e : String)
  deriving DecidableEq

/-- The argument does not look like an option: it begins with no dash, or is nothing else. -/
def IsPlain (argument : String) : Prop := ∀ cs, argument.toList = '-' :: cs → cs = []

/-- The argument is a name of the option. -/
def ValueOption.IsCalled (option : ValueOption) (argument : String) : Prop :=
  argument = option.short ∨ argument = option.long

/-- How an item is written as one argument. -/
inductive Spells : String → Item → Prop
  | long {option : ValueOption} {value : String} :
    Spells (option.long ++ "=" ++ value) (.option option value)
  | short {option : ValueOption} {value : String} :
    Spells (option.short ++ "=" ++ value) (.option option value)
  | joined {option : ValueOption} {value : String} : value ≠ "" →
    (∀ cs, value.toList ≠ '=' :: cs) → Spells (option.short ++ value) (.option option value)
  | list : Spells "--list" .list
  | cached : Spells "--cached" .cached
  | plain {e : String} : IsPlain e → Spells e (.expression e)

/-- How items are written one after the other. -/
inductive Written : List String → List Item → Prop
  | nil : Written [] []
  | one {argument : String} {item : Item} {rest : List String} {items : List Item} :
    Spells argument item → Written rest items → Written (argument :: rest) (item :: items)
  | apart {option : ValueOption} {name value : String} {rest : List String} {items : List Item} :
    option.IsCalled name → IsPlain value → Written rest items →
    Written (name :: value :: rest) (.option option value :: items)
  | dashes : Written ["--"] []
  | last {e : String} : Written ["--", e] [.expression e]

/-- Takes an item. -/
def Options.take (o : Options) : Item → Except Usage Options
  | .option option value => o.add option value
  | .list => o.set .list
  | .cached => o.set .cached
  | .expression e =>
    if o.expression.isSome then .error .unknownArgument else .ok { o with expression := some e }

theorem Options.expression_of_add {o r : Options} {option : ValueOption} {value : String}
    (h : o.add option value = .ok r) : r.expression = o.expression := by
  cases option with
  | symbol =>
    simp only [add] at h
    split at h <;> cases h
    rfl
  | file =>
    simp only [add] at h
    split at h
    · cases h
    · split at h <;> cases h
      rfl

/-! ### The names of options -/

section Names

variable {option : ValueOption} {name : String}

theorem longOption?_eq_option (h : longOption? name = some (.inl option)) :
    "--" ++ name = option.long := by
  unfold longOption? at h
  split at h <;> cases h <;> rfl

theorem longOption?_eq_flag {f : Flag} (h : longOption? name = some (.inr f)) :
    name = "list" ∧ f = .list ∨ name = "cached" ∧ f = .cached ∨ f = .help ∨ f = .version := by
  unfold longOption? at h
  split at h <;> cases h <;> simp

theorem shortOption?_eq_option {c : Char} (h : shortOption? c = some (.inl option)) :
    option.short.toList = ['-', c] := by
  unfold shortOption? at h
  split at h <;> cases h <;> rfl

theorem shortOption?_eq_flag {c : Char} {f : Flag} (h : shortOption? c = some (.inr f)) :
    f = .help ∨ f = .version := by
  unfold shortOption? at h
  split at h <;> cases h <;> simp

end Names

namespace Progress

variable {p q : Progress} {o r : Options} {option : ValueOption} {argument value : String}
  {item : Item} {arguments : List String}

/-! ### What an argument is -/

theorem take_of_isPlain (h : IsPlain argument) : p.take argument = p.plain argument := by
  rw [take]
  split
  · rfl
  · split
    next hcs => cases h _ hcs
    next hcs => cases h _ hcs
    next => rfl
    next hne hcs => exact (hne (h _ hcs)).elim
    next => rfl

theorem take_of_long {c : Char} {cs : List Char} (hp : p.ended = false)
    (h : argument.toList = '-' :: '-' :: c :: cs) : p.take argument = p.long (c :: cs) := by
  simp [take, hp, h]

theorem take_of_short {c : Char} {cs : List Char} (hp : p.ended = false) (hc : c ≠ '-')
    (h : argument.toList = '-' :: c :: cs) : p.take argument = p.short (c :: cs) := by
  simp [take, hp, h, hc]

/-- The progress is taken as it is if only options come to an end: the pending value settles and
gives these options, and options have not ended. -/
def Open (p : Progress) (o : Options) : Prop := p.ended = false ∧ p.settle = .ok ⟨o, none, false⟩

theorem open_mk (o : Options) : Open ⟨o, none, false⟩ o := ⟨rfl, rfl⟩

section Open

variable (hp : p.Open o)
include hp

theorem Open.expression : p.settled.expression = o.expression := by
  obtain ⟨settled, _ | ⟨option, _ | value⟩, ended⟩ := p
  · cases hp.2
    rfl
  · cases hp.2
  · obtain ⟨r, hr, h⟩ := map_eq_ok_iff.mp hp.2
    cases h
    exact (Options.expression_of_add hr).symm

theorem Open.option_none : p.option option none = .ok ⟨o, some ⟨option, none⟩, false⟩ := by
  rw [Progress.option, hp.2]
  rfl

theorem Open.option_some : p.option option (some value) =
    (o.take (.option option value)).map fun o => ⟨o, none, false⟩ := by
  rw [Progress.option, hp.2]
  rfl

theorem Open.flag {f : Flag} : p.flag f = (o.set f).map fun o => ⟨o, none, false⟩ := by
  rw [Progress.flag, hp.2]
  rfl

theorem Open.plain : p.plain argument =
    (o.take (.expression argument)).map fun o => ⟨o, none, false⟩ := by
  have hplain : p.plain argument = if p.settled.expression.isSome then .error .unknownArgument
      else p.settle.map fun p =>
        { p with settled := { p.settled with expression := some argument } } := by
    rw [Progress.plain]
    split
    next hpending =>
      obtain ⟨-, h⟩ := hp
      rw [settle, hpending] at h
      cases h
    next => rfl
  rw [hplain, hp.expression, hp.2, Options.take]
  split <;> rfl

end Open

/-- An option is begun by its name alone, and the value is still to come. -/
theorem take_of_isCalled (hp : p.ended = false) (h : option.IsCalled argument) :
    p.take argument = p.option option none := by
  rcases h with rfl | rfl <;> cases option <;>
    simp [take, hp, ValueOption.short, ValueOption.long, short, long, shortOption?, longOption?]

theorem take_long_option (hp : p.ended = false) :
    p.take (option.long ++ "=" ++ value) = p.option option (some value) := by
  cases option <;> simp [take, hp, ValueOption.long, long, longOption?]

theorem take_short_option (hp : p.ended = false) :
    p.take (option.short ++ "=" ++ value) = p.option option (some value) := by
  cases option <;> simp [take, hp, ValueOption.short, short, shortOption?]

theorem take_joined (hp : p.ended = false) (hvalue : value ≠ "")
    (hne : ∀ cs, value.toList ≠ '=' :: cs) :
    p.take (option.short ++ value) = p.option option (some value) := by
  have hjoined : ∀ c, shortOption? c = some (.inl option) →
      p.short (c :: value.toList) = p.option option (some value) := by
    intro c hc
    rw [short, hc]
    simp only
    split
    next h => exact (hvalue (String.toList_eq_nil_iff.mp h)).elim
    next h => exact (hne _ h).elim
    next => rw [String.ofList_toList]
  cases option with
  | symbol => exact (take_of_short hp (by decide) String.toList_append).trans (hjoined 's' rfl)
  | file => exact (take_of_short hp (by decide) String.toList_append).trans (hjoined 'f' rfl)

theorem take_list (hp : p.ended = false) : p.take "--list" = p.flag .list := by
  simp [take, hp, long, longOption?]

theorem take_cached (hp : p.ended = false) : p.take "--cached" = p.flag .cached := by
  simp [take, hp, long, longOption?]

/-- An argument that spells an item takes it. -/
theorem take_of_spells (h : Spells argument item) (hp : p.Open o) :
    p.take argument = (o.take item).map fun o => ⟨o, none, false⟩ := by
  cases h with
  | long => rw [take_long_option hp.1, hp.option_some]
  | short => rw [take_short_option hp.1, hp.option_some]
  | joined hvalue hne => rw [take_joined hp.1 hvalue hne, hp.option_some]
  | list => exact (take_list hp.1).trans hp.flag
  | cached => exact (take_cached hp.1).trans hp.flag
  | plain h => rw [take_of_isPlain h, hp.plain]

/-! ### What is accepted -/

theorem eq_list_or_cached_of_flag {f : Flag} (h : p.flag f = .ok q) : f = .list ∨ f = .cached := by
  obtain ⟨r, -, h⟩ := bind_eq_ok_iff.mp h
  cases f with
  | list => exact .inl rfl
  | cached => exact .inr rfl
  | help => cases h
  | version => cases h

/-- A long option that is accepted is a flag, or has its value behind an equals sign or still to
come. -/
theorem cases_of_long {cs : List Char} (hcs : argument.toList = '-' :: '-' :: cs)
    (h : p.long cs = .ok q) :
    (∃ item, Spells argument item) ∨ ∃ option : ValueOption, option.IsCalled argument := by
  have hsplit := cs.takeWhile_append_dropWhile (p := (· ≠ '='))
  have hsign := cs.head?_dropWhile_not (· ≠ '=')
  simp only [long] at h
  generalize cs.takeWhile (· ≠ '=') = name at h hsplit
  have hdashes : ∀ s : String, "--" ++ String.ofList name = s → s.toList = '-' :: '-' :: name := by
    rintro s rfl
    simp
  rcases hend : cs.dropWhile (· ≠ '=') with _ | ⟨c, value⟩ <;> rw [hend] at h hsplit hsign
  · have hargument : ∀ s : String, "--" ++ String.ofList name = s → argument = s := fun s hs => by
      rw [← String.toList_inj, hcs, hdashes s hs, ← hsplit, List.append_nil]
    split at h
    next => cases h
    next option hoption => exact .inr ⟨option, .inr (hargument _ (longOption?_eq_option hoption))⟩
    next f hf =>
      rw [if_neg (by simp)] at h
      rcases longOption?_eq_flag hf with ⟨hname, rfl⟩ | ⟨hname, rfl⟩ | hf | hf
      · exact .inl ⟨.list, by rw [hargument "--list" (by rw [hname]; rfl)]; exact .list⟩
      · exact .inl ⟨.cached, by rw [hargument "--cached" (by rw [hname]; rfl)]; exact .cached⟩
      all_goals
        subst hf
        rcases eq_list_or_cached_of_flag h with h | h <;> cases h
  · obtain rfl : c = '=' := by simpa using hsign
    split at h
    next => cases h
    next option hoption =>
      obtain rfl : argument = option.long ++ "=" ++ String.ofList value := by
        rw [← String.toList_inj, hcs, String.toList_append, String.toList_append,
          hdashes _ (longOption?_eq_option hoption), ← hsplit]
        simp
      exact .inl ⟨_, .long⟩
    next => cases h

/-- A letter that is accepted is that of an option, and what follows is the value. -/
theorem cases_of_short {c : Char} {cs : List Char} (hcs : argument.toList = '-' :: c :: cs)
    (h : p.short (c :: cs) = .ok q) :
    (∃ item, Spells argument item) ∨ ∃ option : ValueOption, option.IsCalled argument := by
  rw [short] at h
  split at h
  next => cases h
  next f hf =>
    obtain ⟨r, hr, -⟩ := bind_eq_ok_iff.mp h
    rcases shortOption?_eq_flag hf with rfl | rfl <;>
      rcases eq_list_or_cached_of_flag hr with hr | hr <;> cases hr
  next option hoption =>
    have hletter := shortOption?_eq_option hoption
    split at h
    next =>
      exact .inr ⟨option, .inl (by rw [← String.toList_inj, hcs, hletter])⟩
    next value =>
      obtain rfl : argument = option.short ++ "=" ++ String.ofList value := by
        rw [← String.toList_inj, hcs, String.toList_append, String.toList_append, hletter]
        simp
      exact .inl ⟨_, .short⟩
    next hnil hsign =>
      obtain rfl : argument = option.short ++ String.ofList cs := by
        rw [← String.toList_inj, hcs, String.toList_append, hletter]
        simp
      refine .inl ⟨_, .joined (fun hempty => ?_) fun value hvalue => ?_⟩
      · exact hnil (by simpa using congrArg String.toList hempty)
      · exact hsign value (by simpa using hvalue)

/-- What is accepted among the options spells an item, begins an option whose value is still to
come, or ends the options. -/
theorem cases_of_take (hp : p.ended = false) (h : p.take argument = .ok q) :
    (∃ item, Spells argument item) ∨ (∃ option : ValueOption, option.IsCalled argument) ∨
      argument = "--" := by
  rcases hcs : argument.toList with _ | ⟨c, cs⟩
  · exact .inl ⟨_, .plain fun cs h => by cases hcs.symm.trans h⟩
  by_cases hc : c = '-'
  swap
  · exact .inl ⟨_, .plain fun cs h => (hc (List.cons.inj (hcs.symm.trans h)).1).elim⟩
  subst hc
  rcases cs with _ | ⟨d, cs⟩
  · exact .inl ⟨_, .plain fun cs h => (List.cons.inj (hcs.symm.trans h)).2.symm⟩
  by_cases hd : d = '-'
  · subst hd
    rcases cs with _ | ⟨e, cs⟩
    · exact .inr (.inr (String.toList_inj.mp hcs))
    · rw [take_of_long hp hcs] at h
      exact (cases_of_long hcs h).imp_right .inl
  · rw [take_of_short hp hd hcs] at h
    exact (cases_of_short hcs h).imp_right .inl

theorem take_dashes (hp : p.ended = false) : p.take "--" = .ok { p with ended := true } := by
  simp [take, hp]

section Stuck

variable {u : Usage} (hu : p.settle = .error u)
include hu

theorem plain_of_settle_error : p.plain argument = .ok q →
    ∃ option, p.ended = false ∧ p.pending = some ⟨option, none⟩ ∧
      q = ⟨p.settled, some ⟨option, some argument⟩, p.ended⟩ := by
  intro h
  rw [plain] at h
  split at h
  next option hended hpending =>
    cases h
    exact ⟨option, hended, hpending, rfl⟩
  next =>
    rw [hu] at h
    split at h <;> cases h

/-- What is pending and does not settle can only get its value, or stay when the options end. -/
theorem take_of_settle_error (h : p.take argument = .ok q) :
    (∃ option, p.ended = false ∧ p.pending = some ⟨option, none⟩ ∧ IsPlain argument ∧
      q = ⟨p.settled, some ⟨option, some argument⟩, p.ended⟩) ∨
    p.ended = false ∧ q = { p with ended := true } := by
  cases hp : p.ended with
  | true =>
    rw [take_eq_plain hp] at h
    obtain ⟨option, hended, -⟩ := plain_of_settle_error hu h
    cases hp.symm.trans hended
  | false =>
    have hoption : ∀ option attached, p.option option attached ≠ .ok q := by
      intro option attached h
      rw [Progress.option, hu] at h
      cases h
    have hflag : ∀ f, p.flag f ≠ .ok q := by
      intro f h
      rw [Progress.flag, hu] at h
      cases h
    rcases cases_of_take hp h with ⟨item, hitem⟩ | ⟨option, hname⟩ | rfl
    · cases hitem with
      | long => exact (hoption _ _ ((take_long_option hp).symm.trans h)).elim
      | short => exact (hoption _ _ ((take_short_option hp).symm.trans h)).elim
      | joined hvalue hne => exact (hoption _ _ ((take_joined hp hvalue hne).symm.trans h)).elim
      | list => exact (hflag .list ((take_list hp).symm.trans h)).elim
      | cached => exact (hflag .cached ((take_cached hp).symm.trans h)).elim
      | plain hplain =>
        rw [take_of_isPlain hplain] at h
        obtain ⟨option, -, hpending, hq⟩ := plain_of_settle_error hu h
        exact .inl ⟨option, rfl, hpending, hplain, hp ▸ hq⟩
    · exact (hoption _ _ ((take_of_isCalled hp hname).symm.trans h)).elim
    · rw [take_dashes hp] at h
      cases h
      exact .inr ⟨rfl, rfl⟩

end Stuck

/-! ### Runs of arguments -/

/-- The arguments are taken, and with what is pending then settled the options are these. -/
def Leads (p : Progress) (arguments : List String) (r : Options) : Prop :=
  ∃ q s, arguments.foldlM take p = .ok q ∧ q.settle = .ok s ∧ s.settled = r

theorem leads_nil : p.Leads [] r ↔ ∃ s, p.settle = .ok s ∧ s.settled = r := by
  constructor
  · rintro ⟨q, s, hq, hs⟩
    cases hq
    exact ⟨s, hs⟩
  · rintro ⟨s, hs⟩
    exact ⟨p, s, rfl, hs⟩

theorem leads_cons :
    p.Leads (argument :: arguments) r ↔ ∃ q, p.take argument = .ok q ∧ q.Leads arguments r := by
  constructor
  · rintro ⟨last, s, hlast, hs⟩
    rw [List.foldlM_cons] at hlast
    obtain ⟨q, hq, hlast⟩ := bind_eq_ok_iff.mp hlast
    exact ⟨q, hq, last, s, hlast, hs⟩
  · rintro ⟨q, hq, last, s, hlast, hs⟩
    refine ⟨last, s, ?_, hs⟩
    rw [List.foldlM_cons]
    exact bind_eq_ok_iff.mpr ⟨q, hq, hlast⟩

theorem settle_ended (p : Progress) :
    settle { p with ended := true } = p.settle.map fun q => { q with ended := true } := by
  obtain ⟨settled, _ | ⟨option, _ | value⟩, ended⟩ := p
  · rfl
  · rfl
  · simp only [settle]
    cases settled.add option value <;> rfl

/-- No arguments mend what is pending and does not settle, if it has its value. -/
theorem not_leads {u : Usage} (hu : p.settle = .error u)
    (hp : ∀ option, p.ended = false → p.pending ≠ some ⟨option, none⟩) :
    ¬ p.Leads arguments r := by
  induction arguments generalizing p with
  | nil =>
    rw [leads_nil, hu]
    rintro ⟨s, hs, -⟩
    cases hs
  | cons argument rest ih =>
    rw [leads_cons]
    rintro ⟨q, hq, hrest⟩
    rcases take_of_settle_error hu hq with ⟨option, hended, hpending, -⟩ | ⟨-, rfl⟩
    · exact hp option hended hpending
    · refine ih ?_ (fun _ hended => ?_) hrest
      · rw [settle_ended, hu]
        rfl
      · cases hended

/-- Behind two dashes there is the expression or nothing. -/
theorem Open.leads_ended (hp : p.Open o) : Leads { p with ended := true } arguments r ↔
    arguments = [] ∧ o = r ∨ ∃ e, arguments = [e] ∧ o.take (.expression e) = .ok r := by
  have hsettle : settle { p with ended := true } = .ok ⟨o, none, true⟩ := by
    rw [settle_ended, hp.2]
    rfl
  have htake : ∀ e, take { p with ended := true } e =
      (o.take (.expression e)).map fun o => ⟨o, none, true⟩ := by
    intro e
    have hexpression := hp.expression
    rw [take_eq_plain rfl, Progress.plain]
    simp only [hexpression, hsettle, Options.take]
    split <;> rfl
  rcases arguments with _ | ⟨e, rest⟩
  · rw [leads_nil, hsettle]
    simp
  · rw [leads_cons, htake]
    constructor
    · rintro ⟨q, hq, hrest⟩
      obtain ⟨o', ho', rfl⟩ := map_eq_ok_iff.mp hq
      rcases rest with _ | ⟨another, rest⟩
      · obtain ⟨s, hs, rfl⟩ := leads_nil.mp hrest
        cases hs
        exact .inr ⟨e, rfl, ho'⟩
      · obtain ⟨q, hq, -⟩ := leads_cons.mp hrest
        simp only [Options.take] at ho'
        split at ho' <;> cases ho'
        cases hq
    · rintro (⟨h, -⟩ | ⟨e', h, ho'⟩)
      · cases h
      · cases h
        refine ⟨⟨r, none, true⟩, by rw [ho']; rfl, leads_nil.mpr ⟨_, rfl, rfl⟩⟩

/-- Arguments are taken as the items are that they spell. -/
theorem Open.leads_of_written {items : List Item} (hp : p.Open o) (h : Written arguments items)
    (hitems : items.foldlM Options.take o = .ok r) : p.Leads arguments r := by
  induction h generalizing p o with
  | nil =>
    cases hitems
    exact leads_nil.mpr ⟨_, hp.2, rfl⟩
  | one hspells _ ih =>
    rw [List.foldlM_cons] at hitems
    obtain ⟨o', ho', hitems⟩ := bind_eq_ok_iff.mp hitems
    refine leads_cons.mpr ⟨⟨o', none, false⟩, ?_, ih (open_mk o') hitems⟩
    rw [take_of_spells hspells hp, ho']
    rfl
  | apart hname hplain _ ih =>
    rw [List.foldlM_cons] at hitems
    obtain ⟨o', ho', hitems⟩ := bind_eq_ok_iff.mp hitems
    refine leads_cons.mpr ⟨_, (take_of_isCalled hp.1 hname).trans hp.option_none, ?_⟩
    refine leads_cons.mpr ⟨_, take_of_isPlain hplain, ih ⟨rfl, ?_⟩ hitems⟩
    exact map_eq_ok_iff.mpr ⟨o', ho', rfl⟩
  | dashes =>
    cases hitems
    exact leads_cons.mpr ⟨_, take_dashes hp.1, hp.leads_ended.mpr (.inl ⟨rfl, rfl⟩)⟩
  | last =>
    rw [List.foldlM_cons] at hitems
    obtain ⟨o', ho', hitems⟩ := bind_eq_ok_iff.mp hitems
    cases hitems
    exact leads_cons.mpr ⟨_, take_dashes hp.1, hp.leads_ended.mpr (.inr ⟨_, rfl, ho'⟩)⟩

/-- What is accepted spells items, and taking them one after the other gives what is read. -/
theorem exists_written (arguments : List String) (r : Options) :
    (∀ p o, Open p o → p.Leads arguments r →
      ∃ items, Written arguments items ∧ items.foldlM Options.take o = .ok r) ∧
    ∀ o option, Leads ⟨o, some ⟨option, none⟩, false⟩ arguments r →
      ∃ value rest items, arguments = value :: rest ∧ IsPlain value ∧ Written rest items ∧
        (Item.option option value :: items).foldlM Options.take o = .ok r := by
  induction arguments with
  | nil =>
    refine ⟨fun p o hp h => ?_, fun o option h => ?_⟩
    · obtain ⟨s, hs, rfl⟩ := leads_nil.mp h
      cases hp.2.symm.trans hs
      exact ⟨[], .nil, rfl⟩
    · obtain ⟨s, hs, -⟩ := leads_nil.mp h
      cases hs
  | cons argument rest ih =>
    obtain ⟨ihopen, ihawaiting⟩ := ih
    refine ⟨fun p o hp h => ?_, fun o option h => ?_⟩
    · obtain ⟨q, hq, hrest⟩ := leads_cons.mp h
      rcases cases_of_take hp.1 hq with ⟨item, hitem⟩ | ⟨option, hname⟩ | rfl
      · rw [take_of_spells hitem hp] at hq
        obtain ⟨o', ho', rfl⟩ := map_eq_ok_iff.mp hq
        obtain ⟨items, hitems, hfold⟩ := ihopen _ o' (open_mk o') hrest
        refine ⟨item :: items, .one hitem hitems, ?_⟩
        rw [List.foldlM_cons]
        exact bind_eq_ok_iff.mpr ⟨o', ho', hfold⟩
      · rw [take_of_isCalled hp.1 hname, hp.option_none] at hq
        cases hq
        obtain ⟨value, rest, items, rfl, hplain, hitems, hfold⟩ := ihawaiting o option hrest
        exact ⟨_, .apart hname hplain hitems, hfold⟩
      · rw [take_dashes hp.1] at hq
        cases hq
        rcases hp.leads_ended.mp hrest with ⟨rfl, rfl⟩ | ⟨e, rfl, he⟩
        · exact ⟨[], .dashes, rfl⟩
        · exact ⟨_, .last, by rw [List.foldlM_cons, he]; rfl⟩
    · obtain ⟨q, hq, hrest⟩ := leads_cons.mp h
      rcases take_of_settle_error rfl hq with ⟨option, -, hpending, hplain, rfl⟩ | ⟨-, rfl⟩
      · cases hpending
        have hsettle : settle ⟨o, some ⟨option, some argument⟩, false⟩ =
            (o.add option argument).map fun o => ⟨o, none, false⟩ := rfl
        cases hadd : o.add option argument with
        | error u =>
          rw [hadd] at hsettle
          refine (not_leads hsettle (fun _ _ hpending => ?_) hrest).elim
          cases hpending
        | ok o' =>
          rw [hadd] at hsettle
          obtain ⟨items, hitems, hfold⟩ := ihopen _ o' ⟨rfl, hsettle⟩ hrest
          refine ⟨argument, rest, items, rfl, hplain, hitems, ?_⟩
          rw [List.foldlM_cons]
          exact bind_eq_ok_iff.mpr ⟨o', hadd, hfold⟩
      · refine (not_leads rfl (fun _ hended => ?_) hrest).elim
        cases hended

end Progress

/-! ### What the items come to -/

/-- The value that the item gives to the option. -/
def Item.value? (option : ValueOption) : Item → Option String
  | .option other value => if other = option then some value else none
  | _ => none

/-- The expression that the item is. -/
def Item.expression? : Item → Option String
  | .expression e => some e
  | _ => none

/-- The values that the items give to the option, in their order. -/
def valuesOf (option : ValueOption) (items : List Item) : List String :=
  items.filterMap (Item.value? option)

/-- The expressions among the items. -/
def expressionsOf (items : List Item) : List String := items.filterMap Item.expression?

theorem valuesOf_append (option : ValueOption) (items : List Item) (item : Item) :
    valuesOf option (items ++ [item]) = valuesOf option items ++ (item.value? option).toList := by
  rw [valuesOf, List.filterMap_append, List.filterMap_cons]
  cases item.value? option <;> rfl

theorem expressionsOf_append (items : List Item) (item : Item) :
    expressionsOf (items ++ [item]) = expressionsOf items ++ item.expression?.toList := by
  rw [expressionsOf, List.filterMap_append, List.filterMap_cons]
  cases item.expression? <;> rfl

namespace Options

/-- The options are what the items come to: all definitions in their order, and not more than one
file, one flag of each kind and one expression. -/
structure Gathers (o : Options) (items : List Item) : Prop where
  definitions : (valuesOf .symbol items).map Definition.read = o.definitions.map .ok
  file : valuesOf .file items = o.file.toList
  file_ne : o.file ≠ some ""
  list : items.count .list = o.list.toNat
  cached : items.count .cached = o.cached.toNat
  expression : expressionsOf items = o.expression.toList

variable {o r : Options} {items : List Item} {item : Item} {value : String}

theorem gathers_iff : o.Gathers items ↔
    (valuesOf .symbol items).map Definition.read = o.definitions.map .ok ∧
    valuesOf .file items = o.file.toList ∧ o.file ≠ some "" ∧
    items.count .list = o.list.toNat ∧ items.count .cached = o.cached.toNat ∧
    expressionsOf items = o.expression.toList := by
  constructor
  · rintro ⟨definitions, file, file_ne, list, cached, expression⟩
    exact ⟨definitions, file, file_ne, list, cached, expression⟩
  · rintro ⟨definitions, file, file_ne, list, cached, expression⟩
    exact ⟨definitions, file, file_ne, list, cached, expression⟩

theorem gathers_none : Gathers .none [] := ⟨rfl, rfl, nofun, rfl, rfl, rfl⟩

theorem eq_none_of_gathers (h : r.Gathers []) : r = .none := by
  obtain ⟨definitions, file, -, list, cached, expression⟩ := h
  obtain ⟨ds, path, listed, kept, e⟩ := r
  obtain rfl : ds = [] := List.map_eq_nil_iff.mp definitions.symm
  obtain rfl : path = .none := Option.toList_eq_nil_iff.mp file.symm
  obtain rfl : listed = false := by cases listed <;> trivial
  obtain rfl : kept = false := by cases kept <;> trivial
  obtain rfl : e = .none := Option.toList_eq_nil_iff.mp expression.symm
  rfl

/-! A further item adds one thing to what the items come to. -/

theorem append_singleton_eq_toList_iff {α : Type} {xs : List α} {x : α} {y : Option α} :
    xs ++ [x] = y.toList ↔ y = some x ∧ xs = [] := by
  cases y with
  | none => simp
  | some y => simp [List.append_eq_singleton_iff, eq_comm, and_comm]

theorem gathers_append_definition : r.Gathers (items ++ [.option .symbol value]) ↔
    ∃ ds d, r.definitions = ds ++ [d] ∧ Definition.read value = .ok d ∧
      Gathers { r with definitions := ds } items := by
  obtain ⟨ds, file, list, cached, e⟩ := r
  simp only [gathers_iff, valuesOf_append, expressionsOf_append, Item.value?, Item.expression?]
  constructor
  · rintro ⟨hdefinitions, hrest⟩
    rw [List.map_append] at hdefinitions
    obtain ⟨front, back, rfl, hfront, hback⟩ := List.map_eq_append_iff.mp hdefinitions.symm
    obtain ⟨d, rfl, hd⟩ := List.map_eq_singleton_iff.mp hback
    exact ⟨front, d, rfl, hd.symm, hfront.symm, by simpa using hrest⟩
  · rintro ⟨front, d, rfl, hd, hfront, hrest⟩
    refine ⟨?_, by simpa using hrest⟩
    simp [hd, hfront]

theorem gathers_append_file : r.Gathers (items ++ [.option .file value]) ↔
    r.file = some value ∧ value ≠ "" ∧ Gathers { r with file := .none } items := by
  obtain ⟨ds, file, list, cached, e⟩ := r
  simp only [gathers_iff, valuesOf_append, expressionsOf_append, Item.value?, Item.expression?,
    append_singleton_eq_toList_iff, List.count_append, List.count_cons_of_ne, List.count_nil,
    Option.toList_none, Option.toList_some, List.append_nil, ne_eq, reduceCtorEq, ↓reduceIte,
    not_false_eq_true, add_zero, true_and]
  constructor
  · rintro ⟨hds, ⟨rfl, hfile⟩, hne, hrest⟩
    exact ⟨rfl, by simpa using hne, hds, hfile, hrest⟩
  · rintro ⟨rfl, hne, hds, hfile, hrest⟩
    exact ⟨hds, ⟨rfl, hfile⟩, by simpa using hne, hrest⟩

theorem gathers_append_list : r.Gathers (items ++ [.list]) ↔
    r.list = true ∧ Gathers { r with list := false } items := by
  obtain ⟨ds, file, _ | _, cached, e⟩ := r <;>
    simp [gathers_iff, valuesOf_append, expressionsOf_append, Item.value?, Item.expression?]

theorem gathers_append_cached : r.Gathers (items ++ [.cached]) ↔
    r.cached = true ∧ Gathers { r with cached := false } items := by
  obtain ⟨ds, file, list, _ | _, e⟩ := r <;>
    simp [gathers_iff, valuesOf_append, expressionsOf_append, Item.value?, Item.expression?]

theorem gathers_append_expression : r.Gathers (items ++ [.expression value]) ↔
    r.expression = some value ∧ Gathers { r with expression := .none } items := by
  obtain ⟨ds, file, list, cached, e⟩ := r
  simp only [gathers_iff, valuesOf_append, expressionsOf_append, Item.value?, Item.expression?,
    append_singleton_eq_toList_iff, List.count_append, List.count_cons_of_ne, List.count_nil,
    Option.toList_none, Option.toList_some, List.append_nil, ne_eq, reduceCtorEq,
    not_false_eq_true, add_zero]
  constructor
  · rintro ⟨hds, hfile, hne, hlist, hcached, rfl, hitems⟩
    exact ⟨rfl, hds, hfile, hne, hlist, hcached, hitems⟩
  · rintro ⟨rfl, hds, hfile, hne, hlist, hcached, hitems⟩
    exact ⟨hds, hfile, hne, hlist, hcached, rfl, hitems⟩

/-- One more item is taken by options that the items before it come to. -/
theorem gathers_append :
    r.Gathers (items ++ [item]) ↔ ∃ o : Options, o.Gathers items ∧ o.take item = .ok r := by
  cases item with
  | option option value =>
    cases option with
    | symbol =>
      rw [gathers_append_definition]
      constructor
      · rintro ⟨ds, d, hds, hd, hitems⟩
        refine ⟨_, hitems, ?_⟩
        simp only [take, add, hd]
        rw [← hds]
      · rintro ⟨o, ho, h⟩
        simp only [take, add] at h
        split at h <;> cases h
        next d hd => exact ⟨o.definitions, d, rfl, hd, ho⟩
    | file =>
      rw [gathers_append_file]
      constructor
      · rintro ⟨hfile, hvalue, hitems⟩
        refine ⟨_, hitems, ?_⟩
        simp [take, add, hvalue, ← hfile]
      · rintro ⟨o, ho, h⟩
        obtain ⟨ds, _ | path, list, cached, e⟩ := o
        · simp only [take, add, Option.isSome_none, Bool.false_eq_true, if_false] at h
          split at h <;> cases h
          next hvalue => exact ⟨rfl, hvalue, ho⟩
        · cases h
  | list =>
    rw [gathers_append_list]
    constructor
    · rintro ⟨hlist, hitems⟩
      exact ⟨_, hitems, by simp [take, set, ← hlist]⟩
    · rintro ⟨⟨ds, file, _ | _, cached, e⟩, ho, h⟩ <;> cases h
      exact ⟨rfl, ho⟩
  | cached =>
    rw [gathers_append_cached]
    constructor
    · rintro ⟨hcached, hitems⟩
      exact ⟨_, hitems, by simp [take, set, ← hcached]⟩
    · rintro ⟨⟨ds, file, list, _ | _, e⟩, ho, h⟩ <;> cases h
      exact ⟨rfl, ho⟩
  | expression value =>
    rw [gathers_append_expression]
    constructor
    · rintro ⟨hexpression, hitems⟩
      exact ⟨_, hitems, by simp [take, ← hexpression]⟩
    · rintro ⟨⟨ds, file, list, cached, _ | e⟩, ho, h⟩ <;> cases h
      exact ⟨rfl, ho⟩

/-- Taking items one after the other gives what they come to. -/
theorem foldlM_take_eq_ok_iff : items.foldlM take .none = .ok r ↔ r.Gathers items := by
  induction items using List.reverseRecOn generalizing r with
  | nil =>
    constructor
    · intro h
      cases h
      exact gathers_none
    · intro h
      rw [eq_none_of_gathers h]
      rfl
  | append_singleton items item ih =>
    rw [List.foldlM_append, gathers_append]
    simp only [List.foldlM_cons, List.foldlM_nil, bind_pure]
    refine bind_eq_ok_iff.trans (exists_congr fun o => ?_)
    rw [ih]

end Options

/-- The options of the command. -/
def Command.options (c : Command) : Options :=
  ⟨c.definitions, c.file, c.list, c.cached, some c.expression⟩

/-- Arguments are read as a command if they are written items that come to it. -/
theorem read_eq_ok_iff_written {arguments : List String} {c : Command} :
    read arguments = .ok c ↔ ∃ items, Written arguments items ∧ c.options.Gathers items := by
  have hleads : read arguments = .ok c ↔ Progress.start.Leads arguments c.options := by
    rw [read_eq_ok_iff]
    constructor
    · rintro ⟨p, q, e, hp, hq, he, rfl⟩
      refine ⟨p, q, hp, hq, ?_⟩
      rw [Command.options, ← he]
    · rintro ⟨p, q, hp, hq, hc⟩
      refine ⟨p, q, c.expression, hp, hq, ?_, ?_⟩ <;> rw [hc] <;> rfl
  have hstart : Progress.start.Open .none := ⟨rfl, rfl⟩
  rw [hleads]
  constructor
  · intro h
    obtain ⟨items, hwritten, hitems⟩ := (Progress.exists_written _ _).1 _ _ hstart h
    exact ⟨items, hwritten, Options.foldlM_take_eq_ok_iff.mp hitems⟩
  · rintro ⟨items, hwritten, hitems⟩
    exact hstart.leads_of_written hwritten (Options.foldlM_take_eq_ok_iff.mpr hitems)

end FilterLang.CommandLine
