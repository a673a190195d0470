import FilterLang.Proofs.Token.Munch

/-! From the kinds of the automaton to the patterns. A kind is a family of patterns that differ in
their token only: words are the names and all keywords. So a text that does not begin blank is of
some kind exactly when it is of some pattern, and the pattern that reads it gives the token of its
kind. What the automaton finds in front of such a text is then the longest lexeme and the longest
viable front; in front of blank text it finds the blank text. -/

namespace FilterLang.Token

open Computability

namespace Pattern

/-- The kind of the texts of a pattern. -/
def kind : Pattern → Kind
  | .real => .real
  | .integer => .integer
  | .text => .text
  | .boolean _ => .word
  | .connective _ => .word
  | .name => .word
  | .leftParen => .sign .leftParen
  | .rightParen => .sign .rightParen
  | .relation r => .sign (.relation r)

/-- A text of the pattern that no keyword takes from it. -/
def Reads (p : Pattern) (cs : List Char) : Prop :=
  cs ∈ p.language ∧ (p = .name → ∀ q : Pattern, q.IsKeyword → cs ∉ q.language)

variable {p : Pattern} {cs : List Char}

theorem kindOf?_eq_kind (h : cs ∈ p.language) : kindOf? cs = some p.kind := by
  cases p with
  | boolean b =>
    rw [show cs = _ from h]
    cases b <;> decide
  | connective k =>
    rw [show cs = _ from h]
    cases k <;> decide
  | _ => exact kindOf?_eq_some_iff.mpr h

theorem kind_ne_blank (p : Pattern) : p.kind ≠ .sign .blank := by
  cases p <;> simp [kind]

theorem Reads.token?_eq (h : p.Reads cs) : p.token? cs = p.kind.token? cs := by
  cases p with
  | boolean b =>
    rw [show cs = _ from h.1]
    cases b <;> decide
  | connective k =>
    rw [show cs = _ from h.1]
    cases k <;> decide
  | name =>
    have hkey : ∀ q : Pattern, q.IsKeyword → cs ∉ q.language := h.2 rfl
    have htrue : String.ofList cs ≠ "true" := fun e =>
      hkey (.boolean true) trivial (by simp [language, ← e])
    have hfalse : String.ofList cs ≠ "false" := fun e =>
      hkey (.boolean false) trivial (by simp [language, ← e])
    have hword : ∀ k : Connective, k.render ≠ String.ofList cs := fun k e =>
      hkey (.connective k) trivial (by simp [language, e])
    simp [token?, kind, Kind.token?, ofWord, htrue, hfalse, Connective.ofText?, hword]
  | _ => rfl

end Pattern

/-- Is the text one of some pattern? -/
def IsLexeme (cs : List Char) : Prop := ∃ p : Pattern, cs ∈ p.language

/-- Is the text blank? -/
def IsBlank (cs : List Char) : Prop := ∀ c ∈ cs, isSpace c

/-- Does the text not begin blank? -/
def BeginsLexeme (cs : List Char) : Prop := ∀ c, cs.head? = some c → ¬isSpace c

/-- Can the text go on to one of some pattern? -/
def IsViable (cs : List Char) : Prop := ∃ more, IsLexeme (cs ++ more)

section Kinds

variable {k : Kind} {c : Char} {cs : List Char}

theorem exists_reads_of_kindOf? (h : kindOf? cs = some k) (hk : k ≠ .sign .blank) :
    ∃ p : Pattern, p.Reads cs ∧ p.kind = k := by
  have hcs : cs ∈ Progress.start.rest k := kindOf?_eq_some_iff.mp h
  cases k with
  | integer => exact ⟨.integer, ⟨hcs, by simp⟩, rfl⟩
  | real => exact ⟨.real, ⟨hcs, by simp⟩, rfl⟩
  | text => exact ⟨.text, ⟨hcs, by simp⟩, rfl⟩
  | word =>
    -- A keyword reads the word if one is written so, and the name otherwise.
    by_cases hkey : ∃ q : Pattern, q.IsKeyword ∧ cs ∈ q.language
    · obtain ⟨q, hq, hmem⟩ := hkey
      refine ⟨q, ⟨hmem, ?_⟩, ?_⟩
      · rintro rfl
        exact hq.elim
      · cases q <;> first | rfl | exact hq.elim
    · exact ⟨.name, ⟨hcs, fun _ q hq hmem => hkey ⟨q, hq, hmem⟩⟩, rfl⟩
  | sign t =>
    cases t with
    | leftParen => exact ⟨.leftParen, ⟨hcs, by simp⟩, rfl⟩
    | rightParen => exact ⟨.rightParen, ⟨hcs, by simp⟩, rfl⟩
    | relation r => exact ⟨.relation r, ⟨hcs, by simp⟩, rfl⟩
    | blank => exact absurd rfl hk
    | _ => exact absurd hcs (Language.notMem_zero _)

theorem kindOf?_eq_blank_iff :
    kindOf? cs = some (.sign .blank) ↔ cs ≠ [] ∧ IsBlank cs := by
  rw [kindOf?_eq_some_iff]
  exact mem_many

/-- Nothing but blank text begins blank. -/
theorem isBlank_of_kindOf?_cons (hc : isSpace c) (h : kindOf? (c :: cs) = some k) :
    k = .sign .blank := by
  obtain ⟨q, hq, hmem⟩ := Progress.cons_mem_rest_iff.mp (kindOf?_eq_some_iff.mp h)
  have hblank : q = .sign .blank := by
    rcases isSpace_iff.mp hc with rfl | rfl | rfl | rfl | rfl <;> exact (Option.some.inj hq).symm
  subst hblank
  cases k with
  | sign u =>
    rcases Progress.mem_rest_sign.mp hmem with ⟨rfl, -⟩ | hmem
    · rfl
    · rcases Progress.mem_longer.mp hmem with ⟨-, rfl, -⟩ | ⟨h, -⟩ | ⟨h, -⟩
      · rfl
      · cases h
      · cases h
  | _ => exact absurd hmem (Language.notMem_zero _)

theorem isLexeme_iff : IsLexeme cs ↔ ∃ k, kindOf? cs = some k ∧ k ≠ .sign .blank := by
  constructor
  · rintro ⟨p, hp⟩
    exact ⟨p.kind, Pattern.kindOf?_eq_kind hp, p.kind_ne_blank⟩
  · rintro ⟨k, hk, hne⟩
    obtain ⟨p, hp, -⟩ := exists_reads_of_kindOf? hk hne
    exact ⟨p, hp.1⟩

theorem IsLexeme.ne_nil (h : IsLexeme cs) : cs ≠ [] := by
  rintro rfl
  obtain ⟨k, hk, -⟩ := isLexeme_iff.mp h
  cases hk

theorem kindOf?_isSome_iff (h : BeginsLexeme cs) : (kindOf? cs).isSome ↔ IsLexeme cs := by
  rw [isLexeme_iff, Option.isSome_iff_exists]
  refine ⟨fun ⟨k, hk⟩ => ⟨k, hk, ?_⟩, fun ⟨k, hk, _⟩ => ⟨k, hk⟩⟩
  rintro rfl
  obtain ⟨hne, hall⟩ := kindOf?_eq_blank_iff.mp hk
  cases cs with
  | nil => exact hne rfl
  | cons c cs => exact h c rfl (hall c List.mem_cons_self)

theorem read_isSome_iff_isViable (h : BeginsLexeme cs) :
    (Progress.start.read cs).isSome ↔ IsViable cs := by
  rw [Progress.read_isSome_iff]
  constructor
  · rintro ⟨k, more, hk⟩
    have hkind : kindOf? (cs ++ more) = some k := kindOf?_eq_some_iff.mpr hk
    cases cs with
    | nil => exact ⟨['('], .leftParen, rfl⟩
    | cons c cs =>
      have hbegins : BeginsLexeme (c :: cs ++ more) := h
      exact ⟨more, (kindOf?_isSome_iff hbegins).mp (Option.isSome_iff_exists.mpr ⟨k, hkind⟩)⟩
  · rintro ⟨more, hlex⟩
    obtain ⟨k, hk, -⟩ := isLexeme_iff.mp hlex
    exact ⟨k, more, kindOf?_eq_some_iff.mp hk⟩

end Kinds

/-! ### What the automaton finds behind blank text -/

section Fronts

variable {gap lexeme rest cs v : List Char} {p : Pattern}

theorem BeginsLexeme.of_prefix (h : BeginsLexeme cs) (hv : v <+: cs) : BeginsLexeme v := by
  obtain ⟨u, rfl⟩ := hv
  intro c hc
  refine h c ?_
  rw [List.head?_append, hc]
  rfl

theorem exists_gap (cs : List Char) : ∃ gap rest, cs = gap ++ rest ∧ IsBlank gap ∧
    BeginsLexeme rest := by
  refine ⟨cs.takeWhile isSpace, cs.dropWhile isSpace, List.takeWhile_append_dropWhile.symm,
    fun c hc => List.all_eq_true.mp List.all_takeWhile c hc, fun c hc => ?_⟩
  have := List.head?_dropWhile_not isSpace cs
  rw [hc] at this
  simpa using this

theorem longestFront_isLexeme_iff (h : BeginsLexeme cs) :
    LongestFront (fun v => (kindOf? v).isSome) lexeme cs ↔ LongestFront IsLexeme lexeme cs :=
  LongestFront.congr fun _ hv => kindOf?_isSome_iff (h.of_prefix hv)

theorem longestFront_isViable_iff (h : BeginsLexeme cs) :
    LongestFront (fun v => (Progress.start.read v).isSome) lexeme cs ↔
      LongestFront IsViable lexeme cs :=
  LongestFront.congr fun _ hv => read_isSome_iff_isViable (h.of_prefix hv)

/-- Blank text is the longest match where something else follows it. -/
theorem longestFront_of_isBlank (hne : gap ≠ []) (hgap : IsBlank gap) (hrest : BeginsLexeme rest) :
    LongestFront (fun v => (kindOf? v).isSome) gap (gap ++ rest) where
  front := List.prefix_append gap rest
  holds := Option.isSome_iff_exists.mpr ⟨_, kindOf?_eq_blank_iff.mpr ⟨hne, hgap⟩⟩
  longest v hv hP := by
    obtain ⟨k, hk⟩ := Option.isSome_iff_exists.mp hP
    obtain ⟨c, v', rfl⟩ := List.exists_cons_of_ne_nil (l := v) (by rintro rfl; cases hk)
    obtain ⟨d, gap', rfl⟩ := List.exists_cons_of_ne_nil hne
    obtain ⟨rfl, -⟩ := List.cons_prefix_cons.mp hv
    rw [isBlank_of_kindOf?_cons (hgap c List.mem_cons_self) hk] at hk
    -- All of the match is blank, so it ends where the blank text does.
    have hblank := (kindOf?_eq_blank_iff.mp hk).2
    by_contra hlen
    obtain ⟨u, hu⟩ := List.prefix_of_prefix_length_le (List.prefix_append _ rest) hv
      (by omega)
    rw [← hu, List.prefix_append_right_inj] at hv
    obtain ⟨e, u', rfl⟩ := List.exists_cons_of_ne_nil (l := u) (by
      rintro rfl
      rw [List.append_nil] at hu
      simp [hu] at hlen)
    refine hrest.of_prefix hv e rfl (hblank e ?_)
    simp [← hu]

theorem munch_best_of_isBlank (hne : gap ≠ []) (hgap : IsBlank gap) (hrest : BeginsLexeme rest) :
    (munch (gap ++ rest)).best = some (.sign .blank, gap.length) := by
  have hkind : kindOf? gap = some (.sign .blank) := kindOf?_eq_blank_iff.mpr ⟨hne, hgap⟩
  exact munch_best_eq_some (longestFront_of_isBlank hne hgap hrest) hkind

theorem munch_best_of_reads (h : BeginsLexeme cs) (hlong : LongestFront IsLexeme lexeme cs)
    (hp : p.Reads lexeme) : (munch cs).best = some (p.kind, lexeme.length) := by
  have hkind : kindOf? lexeme = some p.kind := Pattern.kindOf?_eq_kind hp.1
  exact munch_best_eq_some ((longestFront_isLexeme_iff h).mpr hlong) hkind

theorem munch_best_eq_none (h : BeginsLexeme cs) (hnone : ∀ v, v <+: cs → ¬IsLexeme v) :
    (munch cs).best = none := by
  rcases munch_best cs with ⟨w, k, hw, -, -⟩ | ⟨-, hbest⟩
  · have hlong := (longestFront_isLexeme_iff h).mp hw
    exact absurd hlong.holds (hnone w hlong.front)
  · exact hbest

theorem munch_reach_of_isViable (h : BeginsLexeme cs) (hlong : LongestFront IsViable lexeme cs) :
    (munch cs).reach = lexeme.length := by
  obtain ⟨w, hw, hreach⟩ := munch_reach cs
  rw [hreach, hlong.unique ((longestFront_isViable_iff h).mp hw)]

end Fronts

end FilterLang.Token
