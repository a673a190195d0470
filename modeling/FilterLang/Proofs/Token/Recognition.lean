import FilterLang.Proofs.Token.Pattern

/-! The automaton recognizes the patterns. Each of its states stands for the texts that still
complete a token of each kind; a step takes a text to its tail, so that running the automaton on a
whole text ends in a kind exactly when the text is one of that kind. As every state can be
completed, a run goes on exactly as long as what is read can go on to a text of some kind. -/

namespace FilterLang.Token

open Computability

/-! ### Classes of characters -/

theorem isDigit_of_beginsWord {c : Char} (h : beginsWord c) : c.isDigit = false := by
  have hclasses : c.isUpper ∨ c.isLower ∨ c = '_' := by
    have hword : ((c.isUpper || c.isLower) || c == '_') = true := h
    simpa [or_assoc] using hword
  by_contra hdigit
  rw [Bool.not_eq_false] at hdigit
  have hle : c.val ≤ 57 := of_decide_eq_true (Bool.and_elim_right hdigit)
  rcases hclasses with hupper | hlower | rfl
  · have hge : 65 ≤ c.val := (of_decide_eq_true hupper).1
    exact absurd (UInt32.le_trans hge hle) (by decide)
  · have hge : 97 ≤ c.val := of_decide_eq_true (Bool.and_elim_left hlower)
    exact absurd (UInt32.le_trans hge hle) (by decide)
  · cases hdigit

theorem isSpace_iff {c : Char} :
    isSpace c ↔ c = ' ' ∨ c = '\t' ∨ c = '\r' ∨ c = '\n' ∨ c = '\x0c' := by
  simp [isSpace, or_assoc]

theorem isMark_iff {c : Char} : isMark c ↔ c = 'e' ∨ c = 'E' := by
  simp [isMark]

namespace Progress

variable {p q : Progress} {c : Char} {cs : List Char} {k : Kind}

theorem begin?_eq_some_iff :
    begin? c = some q ↔
      (c.isDigit ∧ q = .digits) ∨ (beginsWord c ∧ q = .word) ∨ (isSpace c ∧ q = .sign .blank) ∨
      (c = '-' ∧ q = .minus) ∨ (c = '.' ∧ q = .point) ∨ (c = '"' ∧ q = .quoted) ∨
      (c = '(' ∧ q = .sign .leftParen) ∨ (c = ')' ∧ q = .sign .rightParen) ∨
      (c = '=' ∧ q = .sign (.relation .equal)) ∨ (c = '<' ∧ q = .sign (.relation .less)) ∨
      (c = '>' ∧ q = .sign (.relation .greater)) ∨ (c = '!' ∧ q = .bang) := by
  constructor
  · intro h
    unfold begin? at h
    split_ifs at h with hd hw hs
    · exact .inl ⟨hd, (Option.some.inj h).symm⟩
    · exact .inr (.inl ⟨hw, (Option.some.inj h).symm⟩)
    · exact .inr (.inr (.inl ⟨hs, (Option.some.inj h).symm⟩))
    · split at h <;> simp_all
  · rintro (⟨hd, rfl⟩ | ⟨hw, rfl⟩ | ⟨hs, rfl⟩ | h)
    · simp [begin?, hd]
    · simp [begin?, hw, isDigit_of_beginsWord hw]
    · rcases isSpace_iff.mp hs with rfl | rfl | rfl | rfl | rfl <;> rfl
    · rcases h with ⟨rfl, rfl⟩ | ⟨rfl, rfl⟩ | ⟨rfl, rfl⟩ | ⟨rfl, rfl⟩ | ⟨rfl, rfl⟩ | ⟨rfl, rfl⟩ |
        ⟨rfl, rfl⟩ | ⟨rfl, rfl⟩ | ⟨rfl, rfl⟩ <;> rfl

/-- What a step can do, state by state. -/
theorem step?_eq_some_iff :
    p.step? c = some q ↔
      match p with
      | .start => begin? c = some q
      | .minus => (c.isDigit ∧ q = .digits) ∨ (c = '.' ∧ q = .point)
      | .digits => (c.isDigit ∧ q = .digits) ∨ (c = '.' ∧ q = .point) ∨ (isMark c ∧ q = .mark)
      | .point => c.isDigit ∧ q = .fraction
      | .fraction => (c.isDigit ∧ q = .fraction) ∨ (isMark c ∧ q = .mark)
      | .mark => (c.isDigit ∧ q = .exponent) ∨ ((c = '+' ∨ c = '-') ∧ q = .markSign)
      | .markSign => c.isDigit ∧ q = .exponent
      | .exponent => c.isDigit ∧ q = .exponent
      | .quoted => (c = '"' ∧ q = .closed) ∨ (c = '\\' ∧ q = .escape) ∨
        ((c ≠ '"' ∧ c ≠ '\\') ∧ q = .quoted)
      | .escape => c ≠ '\n' ∧ q = .quoted
      | .closed => False
      | .word => continuesWord c ∧ q = .word
      | .bang => c = '=' ∧ q = .sign (.relation .notEqual)
      | .sign (.relation .less) => c = '=' ∧ q = .sign (.relation .lessOrEqual)
      | .sign (.relation .greater) => c = '=' ∧ q = .sign (.relation .greaterOrEqual)
      | .sign .blank => isSpace c ∧ q = .sign .blank
      | .sign _ => False := by
  have hdot : c = '.' → c.isDigit = false := by rintro rfl; rfl
  have hsign : c = '+' ∨ c = '-' → c.isDigit = false := by rintro (rfl | rfl) <;> rfl
  have hmark : isMark c → c.isDigit = false ∧ c ≠ '.' := by
    rw [isMark_iff]
    rintro (rfl | rfl) <;> decide
  cases p with
  | start => rfl
  | sign t =>
    cases t with
    | relation r => cases r <;> grind [step?]
    | _ => grind [step?]
  | _ => grind [step?]

theorem step?_sign_eq_some_iff {t : Token} :
    (sign t).step? c = some q ↔
      (t = .blank ∧ isSpace c ∧ q = .sign .blank) ∨
      (t = .relation .less ∧ c = '=' ∧ q = .sign (.relation .lessOrEqual)) ∨
      (t = .relation .greater ∧ c = '=' ∧ q = .sign (.relation .greaterOrEqual)) := by
  rw [step?_eq_some_iff]
  cases t with
  | relation r => cases r <;> simp
  | _ => simp

/-- From a token of signs the automaton goes on to such a token only. -/
theorem exists_sign_of_step? {t : Token} (h : (sign t).step? c = some q) : ∃ u, q = .sign u := by
  rcases step?_sign_eq_some_iff.mp h with ⟨-, -, rfl⟩ | ⟨-, -, rfl⟩ | ⟨-, -, rfl⟩ <;> exact ⟨_, rfl⟩

/-! ### The texts that complete a token -/

/-- The texts that go on to an integer. -/
def integerRest : Progress → Language Char
  | .start => Pattern.integer.language
  | .minus => many Char.isDigit
  | .digits => (oneOf Char.isDigit)∗
  | _ => 0

/-- The texts that go on to a real. -/
def realRest : Progress → Language Char
  | .start => Pattern.real.language
  | .minus =>
    many Char.isDigit * (single '.' * (many Char.isDigit * optional exponentPart)) +
    single '.' * (many Char.isDigit * optional exponentPart) + many Char.isDigit * exponentPart
  | .digits =>
    (oneOf Char.isDigit)∗ * (single '.' * (many Char.isDigit * optional exponentPart)) +
    (oneOf Char.isDigit)∗ * exponentPart
  | .point => many Char.isDigit * optional exponentPart
  | .fraction => (oneOf Char.isDigit)∗ * optional exponentPart
  | .mark => optional (oneOf fun c => c == '+' || c == '-') * many Char.isDigit
  | .markSign => many Char.isDigit
  | .exponent => (oneOf Char.isDigit)∗
  | _ => 0

/-- The texts that go on to a quoted text. -/
def textRest : Progress → Language Char
  | .start => Pattern.text.language
  | .quoted => quotedItem∗ * single '"'
  | .escape => oneOf (· != '\n') * (quotedItem∗ * single '"')
  | .closed => 1
  | _ => 0

/-- The texts that go on to a word. -/
def wordRest : Progress → Language Char
  | .start => Pattern.name.language
  | .word => (oneOf continuesWord)∗
  | _ => 0

/-- What makes another token of signs out of one, or goes on with blank text. -/
def longer : Token → Token → Language Char
  | .blank, .blank => many isSpace
  | .relation .less, .relation .lessOrEqual => exactly "="
  | .relation .greater, .relation .greaterOrEqual => exactly "="
  | _, _ => 0

/-- The texts of a token of signs, or blank text. -/
def signLanguage : Token → Language Char
  | .leftParen => Pattern.leftParen.language
  | .rightParen => Pattern.rightParen.language
  | .relation r => (Pattern.relation r).language
  | .blank => many isSpace
  | _ => 0

/-- The texts that go on to a token of signs. -/
def signRest (u : Token) : Progress → Language Char
  | .start => signLanguage u
  | .bang => if u = .relation .notEqual then exactly "=" else 0
  | .sign t => (if t = u then 1 else 0) + longer t u
  | _ => 0

/-- The texts that go on from what has been read to a token of a kind. -/
def rest (p : Progress) : Kind → Language Char
  | .integer => p.integerRest
  | .real => p.realRest
  | .text => p.textRest
  | .word => p.wordRest
  | .sign u => p.signRest u

theorem mem_longer {t u : Token} :
    cs ∈ longer t u ↔ (t = .blank ∧ u = .blank ∧ cs ∈ many isSpace) ∨
      (t = .relation .less ∧ u = .relation .lessOrEqual ∧ cs = ['=']) ∨
      (t = .relation .greater ∧ u = .relation .greaterOrEqual ∧ cs = ['=']) := by
  unfold longer
  split <;> simp_all

theorem mem_rest_sign {t u : Token} :
    cs ∈ (sign t).rest (.sign u) ↔ (u = t ∧ cs = []) ∨ cs ∈ longer t u := by
  rw [rest, signRest, Language.mem_add]
  by_cases h : t = u
  · simp [h]
  · simp [h, Ne.symm h]

theorem mem_rest_blank {u : Token} :
    cs ∈ (sign .blank).rest (.sign u) ↔ u = .blank ∧ cs ∈ (oneOf isSpace)∗ := by
  rw [mem_rest_sign, mem_longer, mem_oneOf_star_iff, and_or_left]
  simp

theorem mem_signLanguage {u : Token} :
    cs ∈ signLanguage u ↔
      (u = .leftParen ∧ cs = ['(']) ∨ (u = .rightParen ∧ cs = [')']) ∨
      (∃ r : Relation, u = .relation r ∧ cs = r.render.toList) ∨
      (u = .blank ∧ cs ∈ many isSpace) := by
  cases u <;> simp [signLanguage, Pattern.language]

theorem nil_mem_rest_iff : [] ∈ p.rest k ↔ p.kind? = some k := by
  cases k with
  | integer => cases p <;> simp [rest, integerRest, kind?, Pattern.language, minusSign]
  | real => cases p <;> simp [rest, realRest, kind?, Pattern.language, minusSign]
  | text => cases p <;> simp [rest, textRest, kind?, Pattern.language]
  | word => cases p <;> simp [rest, wordRest, kind?, Pattern.language]
  | sign u =>
    cases p with
    | sign t => simp [mem_rest_sign, mem_longer, kind?, eq_comm]
    | start =>
      rw [rest, signRest, mem_signLanguage]
      simp only [kind?, reduceCtorEq, iff_false]
      rintro (⟨-, h⟩ | ⟨-, h⟩ | ⟨r, -, h⟩ | ⟨-, h⟩)
      · cases h
      · cases h
      · cases r <;> cases h
      · exact nil_notMem_many h
    | bang => by_cases h : u = .relation .notEqual <;> simp [rest, signRest, kind?, h]
    | _ => simp [rest, signRest, kind?]

/-! ### Steps and tails, kind by kind -/

theorem cons_mem_sign_iff {l : Progress → Language Char} (hl : ∀ u, l (.sign u) = 0) {t : Token} :
    c :: cs ∈ l (.sign t) ↔ ∃ q, (sign t).step? c = some q ∧ cs ∈ l q := by
  rw [hl]
  refine ⟨fun h => absurd h (Language.notMem_zero _), fun ⟨q, hq, h⟩ => ?_⟩
  obtain ⟨u, rfl⟩ := exists_sign_of_step? hq
  rw [hl] at h
  exact absurd h (Language.notMem_zero _)

theorem cons_mem_integerRest_iff :
    c :: cs ∈ p.integerRest ↔ ∃ q, p.step? c = some q ∧ cs ∈ q.integerRest := by
  cases p with
  | sign t => exact cons_mem_sign_iff fun _ => rfl
  | start =>
    simp [step?_eq_some_iff, begin?_eq_some_iff, or_and_right, exists_or, and_assoc, integerRest,
      Pattern.language, minusSign]
  | _ => simp [step?_eq_some_iff, or_and_right, exists_or, and_assoc, integerRest]

theorem cons_mem_realRest_digits :
    c :: cs ∈ realRest .digits ↔
      (c.isDigit ∧ cs ∈ realRest .digits) ∨ (c = '.' ∧ cs ∈ realRest .point) ∨
        (isMark c ∧ cs ∈ realRest .mark) := by
  simp only [realRest, Language.mem_add, cons_mem_oneOf_star_mul, cons_mem_single_mul,
    cons_mem_exponentPart]
  tauto

theorem cons_mem_realRest_minus :
    c :: cs ∈ realRest .minus ↔
      (c.isDigit ∧ cs ∈ realRest .digits) ∨ (c = '.' ∧ cs ∈ realRest .point) := by
  simp only [realRest, Language.mem_add, many_mul_eq, cons_mem_oneOf_mul, cons_mem_single_mul]
  tauto

theorem cons_mem_realRest_start :
    c :: cs ∈ realRest .start ↔
      (c = '-' ∧ cs ∈ realRest .minus) ∨ c :: cs ∈ realRest .minus := by
  have hsign : realRest .start = minusSign * realRest .minus := by
    simp only [realRest, Pattern.language, mul_add]
  rw [hsign, minusSign, optional_mul_eq, Language.mem_add, cons_mem_single_mul]
  exact or_comm

theorem cons_mem_realRest_iff :
    c :: cs ∈ p.realRest ↔ ∃ q, p.step? c = some q ∧ cs ∈ q.realRest := by
  cases p with
  | sign t => exact cons_mem_sign_iff fun _ => rfl
  | start =>
    have hsign : ∀ t, cs ∉ (sign t).realRest := fun _ => Language.notMem_zero cs
    have hword : cs ∉ word.realRest := Language.notMem_zero cs
    have hquoted : cs ∉ quoted.realRest := Language.notMem_zero cs
    have hbang : cs ∉ bang.realRest := Language.notMem_zero cs
    rw [cons_mem_realRest_start, cons_mem_realRest_minus]
    simp only [step?_eq_some_iff, begin?_eq_some_iff, or_and_right, exists_or, and_assoc,
      exists_and_left, exists_eq_left, hsign, hword, hquoted, hbang, and_false, false_or, or_false]
    tauto
  | minus =>
    rw [cons_mem_realRest_minus]
    simp only [step?_eq_some_iff, or_and_right, exists_or, and_assoc, exists_and_left,
      exists_eq_left]
  | digits =>
    rw [cons_mem_realRest_digits]
    simp only [step?_eq_some_iff, or_and_right, exists_or, and_assoc, exists_and_left,
      exists_eq_left]
  | _ => simp [step?_eq_some_iff, or_and_right, exists_or, and_assoc, realRest]

theorem cons_mem_textRest_iff :
    c :: cs ∈ p.textRest ↔ ∃ q, p.step? c = some q ∧ cs ∈ q.textRest := by
  cases p with
  | sign t => exact cons_mem_sign_iff fun _ => rfl
  | start =>
    simp [step?_eq_some_iff, begin?_eq_some_iff, or_and_right, exists_or, and_assoc, textRest,
      Pattern.language]
  | quoted =>
    simp only [step?_eq_some_iff, or_and_right, exists_or, and_assoc, exists_and_left,
      exists_eq_left, textRest, cons_mem_quotedItem_star_mul, cons_mem_single, Language.mem_one]
    tauto
  | _ => simp [step?_eq_some_iff, or_and_right, exists_or, and_assoc, textRest]

theorem cons_mem_wordRest_iff :
    c :: cs ∈ p.wordRest ↔ ∃ q, p.step? c = some q ∧ cs ∈ q.wordRest := by
  cases p with
  | sign t => exact cons_mem_sign_iff fun _ => rfl
  | start =>
    simp [step?_eq_some_iff, begin?_eq_some_iff, or_and_right, exists_or, and_assoc, wordRest,
      Pattern.language]
  | _ => simp [step?_eq_some_iff, or_and_right, exists_or, and_assoc, wordRest]

/-- A token of signs goes on by what makes another one out of it. -/
theorem cons_mem_longer_iff {t u : Token} :
    c :: cs ∈ longer t u ↔ ∃ q, (sign t).step? c = some q ∧ cs ∈ q.rest (.sign u) := by
  simp only [step?_sign_eq_some_iff]
  constructor
  · intro h
    rcases mem_longer.mp h with ⟨rfl, rfl, h⟩ | ⟨rfl, rfl, h⟩ | ⟨rfl, rfl, h⟩
    · obtain ⟨hc, hcs⟩ := cons_mem_many.mp h
      exact ⟨_, .inl ⟨rfl, hc, rfl⟩, mem_rest_blank.mpr ⟨rfl, hcs⟩⟩
    · obtain ⟨rfl, rfl⟩ := List.cons.inj h
      exact ⟨_, .inr (.inl ⟨rfl, rfl, rfl⟩), mem_rest_sign.mpr (.inl ⟨rfl, rfl⟩)⟩
    · obtain ⟨rfl, rfl⟩ := List.cons.inj h
      exact ⟨_, .inr (.inr ⟨rfl, rfl, rfl⟩), mem_rest_sign.mpr (.inl ⟨rfl, rfl⟩)⟩
  · rintro ⟨q, ⟨rfl, hc, rfl⟩ | ⟨rfl, rfl, rfl⟩ | ⟨rfl, rfl, rfl⟩, h⟩
    · obtain ⟨rfl, hcs⟩ := mem_rest_blank.mp h
      exact cons_mem_many.mpr ⟨hc, hcs⟩
    · simp only [mem_rest_sign, mem_longer] at h
      simpa [mem_longer] using h
    · simp only [mem_rest_sign, mem_longer] at h
      simpa [mem_longer] using h

theorem cons_mem_signRest_iff {u : Token} :
    c :: cs ∈ p.rest (.sign u) ↔ ∃ q, p.step? c = some q ∧ cs ∈ q.rest (.sign u) := by
  cases p with
  | sign t =>
    rw [mem_rest_sign, ← cons_mem_longer_iff]
    simp
  | start =>
    simp only [step?_eq_some_iff, begin?_eq_some_iff, or_and_right, exists_or, and_assoc,
      exists_and_left, exists_eq_left, mem_rest_sign, mem_longer]
    cases u with
    | relation r =>
      cases r <;> simp [rest, signRest, signLanguage, Pattern.language, Relation.render]
    | _ => simp [rest, signRest, signLanguage, Pattern.language, mem_oneOf_star_iff, and_or_left]
  | bang =>
    simp only [step?_eq_some_iff, and_assoc, exists_and_left, exists_eq_left, mem_rest_sign,
      mem_longer]
    by_cases h : u = .relation .notEqual <;> simp [rest, signRest, h]
  | _ => simp [step?_eq_some_iff, or_and_right, exists_or, and_assoc, rest, signRest]

/-- A step takes a text that completes a token to its tail. -/
theorem cons_mem_rest_iff : c :: cs ∈ p.rest k ↔ ∃ q, p.step? c = some q ∧ cs ∈ q.rest k := by
  cases k with
  | integer => exact cons_mem_integerRest_iff
  | real => exact cons_mem_realRest_iff
  | text => exact cons_mem_textRest_iff
  | word => exact cons_mem_wordRest_iff
  | sign u => exact cons_mem_signRest_iff

/-! ### Running the automaton -/

/-- Reads a text, if some pattern goes on to its end. -/
def read : Progress → List Char → Option Progress
  | p, [] => some p
  | p, c :: cs => (p.step? c).bind fun q => q.read cs

theorem read_append {xs ys : List Char} : p.read (xs ++ ys) = (p.read xs).bind (·.read ys) := by
  induction xs generalizing p with
  | nil => rfl
  | cons c cs ih =>
    simp only [List.cons_append, read]
    cases p.step? c with
    | none => rfl
    | some q => simpa using ih

theorem mem_rest_iff : cs ∈ p.rest k ↔ ∃ q, p.read cs = some q ∧ q.kind? = some k := by
  induction cs generalizing p with
  | nil => simp [nil_mem_rest_iff, read]
  | cons c cs ih =>
    rw [cons_mem_rest_iff]
    cases h : p.step? c with
    | none => simp [read, h]
    | some q => simp [read, h, ih]

/-- A text that completes a token from here. -/
def completion : Progress → List Char
  | .start => ['0']
  | .minus => ['0']
  | .point => ['0']
  | .mark => ['0']
  | .markSign => ['0']
  | .quoted => ['"']
  | .escape => ['"', '"']
  | .bang => ['=']
  | _ => []

theorem exists_completion_mem (p : Progress) : ∃ k, p.completion ∈ p.rest k := by
  simp only [mem_rest_iff]
  cases p <;> exact ⟨_, _, rfl, rfl⟩

/-- A run goes on exactly as long as what is read can go on to a token. -/
theorem read_isSome_iff : (p.read cs).isSome ↔ ∃ k more, cs ++ more ∈ p.rest k := by
  simp only [mem_rest_iff, read_append]
  constructor
  · intro h
    obtain ⟨q, hq⟩ := Option.isSome_iff_exists.mp h
    obtain ⟨k, hk⟩ := q.exists_completion_mem
    exact ⟨k, q.completion, by simpa [hq] using mem_rest_iff.mp hk⟩
  · rintro ⟨k, more, q, hq, -⟩
    cases h : p.read cs <;> simp_all

end Progress

/-- The kind of token that a text is, if it is one. -/
def kindOf? (cs : List Char) : Option Kind := (Progress.start.read cs).bind Progress.kind?

theorem kindOf?_eq_some_iff {cs : List Char} {k : Kind} :
    kindOf? cs = some k ↔ cs ∈ Progress.start.rest k := by
  simp [kindOf?, Progress.mem_rest_iff, Option.bind_eq_some_iff]

end FilterLang.Token
