import FilterLang.Expr.Parse
import FilterLang.Proofs.Expr.Grammar
import FilterLang.Proofs.Token.Written

/-! Writing a tree and parsing the text gives the tree back exactly if its symbols are named by
names, its reals are finite and its groups keep the depth limit. Such a tree writes its tokens,
and the tokens have no other tree. Conversely a token that a scan gives has a name or a finite
real at most, so every tree that is parsed from any text is of that kind. -/

namespace FilterLang

/-- A name: a letter or an underscore, then letters, digits, underscores and hyphens. It is no
keyword. -/
structure IsName (name : String) : Prop where
  form : name.toList ∈ Token.Pattern.name.language
  notKeyword : name ∉ ["true", "false", "and", "or"]

/-- A value with a written form: any but an infinite real and NaN. -/
def Value.Writable : Value → Prop
  | .real x => ∃ negative m, x = .finite negative m
  | _ => True

/-- An operand with a written form. -/
def Operand.Writable : Operand → Prop
  | .literal v => v.Writable
  | .symbol name => IsName name

/-- A tree with a written form. -/
structure Chain.Writable (c : Chain) : Prop where
  operands : ∀ d ∈ c.comparisons, d.left.Writable ∧ d.right.Writable
  depth : c.depth ≤ maxDepth

theorem isName_iff {name : String} : IsName name ↔ Token.Pattern.name.Reads name.toList := by
  constructor
  · rintro ⟨hform, hkeyword⟩
    refine ⟨hform, fun _ q hq hmem => hkeyword ?_⟩
    cases q with
    | boolean b =>
      rw [String.toList_injective hmem]
      cases b <;> decide
    | connective k =>
      rw [String.toList_injective hmem]
      cases k <;> decide
    | _ => exact hq.elim
  · rintro ⟨hform, hkeyword⟩
    refine ⟨hform, fun hmem => ?_⟩
    have hnot := hkeyword rfl
    simp only [List.mem_cons, List.not_mem_nil, or_false] at hmem
    rcases hmem with rfl | rfl | rfl | rfl
    · exact hnot (.boolean true) trivial rfl
    · exact hnot (.boolean false) trivial rfl
    · exact hnot (.connective .and) trivial rfl
    · exact hnot (.connective .or) trivial rfl

/-! ### What trees write -/

section Writing

open Token (Writes)

theorem Operand.writes {o : Operand} (h : o.Writable) : Writes o.render.toList [o.token] := by
  cases o with
  | literal v =>
    cases v with
    | integer n =>
      rw [render, Value.render, String.toList_ofList]
      exact Token.writes_integer n
    | real x =>
      obtain ⟨negative, m, rfl⟩ := h
      rw [render, Value.render, String.toList_ofList]
      exact Token.writes_real negative m
    | text s =>
      rw [render, Value.render, String.toList_ofList]
      exact Token.writes_text s
    | boolean b => exact Token.writes_boolean b
  | symbol name =>
    refine Writes.of_reads (p := .name) (isName_iff.mp h) ?_
    rw [Token.Pattern.token?, render, String.ofList_toList]
    rfl

theorem Comparison.writes {c : Comparison} (h : c.left.Writable ∧ c.right.Writable) :
    Writes c.render.toList c.tokens := by
  have hleft := Operand.writes h.1
  have hright := Operand.writes h.2
  have hwrites := (hleft.append (Token.writes_relation c.relation)).append hright
  simpa [Comparison.render, Comparison.tokens] using hwrites

mutual

theorem Expr.writes : (e : Expr) →
    (∀ d ∈ e.comparisons, d.left.Writable ∧ d.right.Writable) → Writes e.render.toList e.tokens
  | .comparison c, h => Comparison.writes (h c (List.mem_singleton.mpr rfl))
  | .group inner, h => by
    have hwrites := (Chain.writes inner h).parens
    simpa [Expr.render, Expr.tokens] using hwrites

/-- The text of a tree writes its tokens. -/
theorem Chain.writes : (c : Chain) →
    (∀ d ∈ c.comparisons, d.left.Writable ∧ d.right.Writable) → Writes c.render.toList c.tokens
  | .one item, h => Expr.writes item h
  | .join before k item, h => by
    have hbefore := Chain.writes before fun d hd => h d (List.mem_append_left _ hd)
    have hitem := Expr.writes item fun d hd => h d (List.mem_append_right _ hd)
    have hwrites := (hbefore.append (Token.writes_connective k)).append hitem
    simpa [Chain.render, Chain.tokens] using hwrites

end

end Writing

/-! ### What scans and parses give -/

section Parsing

variable {source : String} {c : Chain} {ts : List Placed}

theorem parse_eq_ok_iff :
    parse source = .ok c ↔
      ∃ ts, Token.scan source = .ok ts ∧ ts.map Placed.token = c.tokens ∧ c.depth ≤ maxDepth := by
  rw [parse]
  cases hscan : Token.scan source with
  | error e => simp
  | ok ts => simp [Reading.source_eq_ok_iff]

theorem Operand.writable_of_token? {p : Token.Pattern} {cs : List Char} {t : Token} {o : Operand}
    (hp : p.Reads cs) (ht : p.token? cs = some t) (ho : t.operand? = some o) : o.Writable := by
  cases p with
  | real =>
    obtain ⟨x, hx, rfl⟩ := Option.map_eq_some_iff.mp ht
    obtain ⟨m, -, rfl⟩ := Option.map_eq_some_iff.mp hx
    obtain rfl := Option.some.inj ho
    exact ⟨_, m, rfl⟩
  | integer =>
    obtain ⟨n, -, rfl⟩ := Option.map_eq_some_iff.mp ht
    obtain rfl := Option.some.inj ho
    trivial
  | text =>
    obtain ⟨s, -, rfl⟩ := Option.map_eq_some_iff.mp ht
    obtain rfl := Option.some.inj ho
    trivial
  | name =>
    obtain rfl := Option.some.inj ht
    obtain rfl := Option.some.inj ho
    exact isName_iff.mpr (by rwa [String.toList_ofList])
  | boolean b =>
    obtain rfl := Option.some.inj ht
    obtain rfl := Option.some.inj ho
    trivial
  | _ =>
    obtain rfl := Option.some.inj ht
    cases ho

/-- The operands among the tokens of a text have a written form. -/
theorem Token.Tiles.writable {offset : Nat} {cs : List Char} (h : Tiles offset cs ts) :
    ∀ o : Operand, o.token ∈ ts.map Placed.token → o.Writable := by
  induction h with
  | nil _ => simp
  | cons _ hp ht _ ih =>
    intro o ho
    rcases List.mem_cons.mp ho with heq | hmem
    · exact Operand.writable_of_token? hp ht (operand?_eq_some_iff.mpr heq.symm)
    · exact ih o hmem

mutual

theorem Expr.token_mem_tokens : (e : Expr) → ∀ d ∈ e.comparisons,
    d.left.token ∈ e.tokens ∧ d.right.token ∈ e.tokens
  | .comparison c, d, h => by
    rw [List.mem_singleton.mp h]
    simp [Expr.tokens, Comparison.tokens]
  | .group inner, d, h => by
    have hinner := Chain.token_mem_tokens inner d h
    simp [Expr.tokens, hinner]

theorem Chain.token_mem_tokens : (c : Chain) → ∀ d ∈ c.comparisons,
    d.left.token ∈ c.tokens ∧ d.right.token ∈ c.tokens
  | .one item, d, h => Expr.token_mem_tokens item d h
  | .join before k item, d, h => by
    rcases List.mem_append.mp h with h | h
    · have hbefore := Chain.token_mem_tokens before d h
      simp [Chain.tokens, hbefore]
    · have hitem := Expr.token_mem_tokens item d h
      simp [Chain.tokens, hitem]

end

/-- Every tree that is parsed from a text has a written form. -/
theorem Chain.writable_of_parse (h : parse source = .ok c) : c.Writable := by
  obtain ⟨ts, hscan, htokens, hdepth⟩ := parse_eq_ok_iff.mp h
  have hwritable := (Token.tiles_of_scan hscan).writable
  rw [htokens] at hwritable
  refine ⟨fun d hd => ?_, hdepth⟩
  obtain ⟨hleft, hright⟩ := c.token_mem_tokens d hd
  exact ⟨hwritable _ hleft, hwritable _ hright⟩

theorem Chain.Writable.parse_render (h : c.Writable) : parse c.render = .ok c := by
  obtain ⟨ts, htokens, hscan⟩ := (c.writes h.operands).scan_eq
  exact parse_eq_ok_iff.mpr ⟨ts, hscan, htokens, h.depth⟩

end Parsing

/-- A tree comes back from its text exactly if it has a written form, and every tree that is parsed
from a text has one. -/
theorem parse_render_eq_ok_iff :
    (∀ c : Chain, parse c.render = .ok c ↔ c.Writable) ∧
    ∀ source c, parse source = .ok c → c.Writable ∧ parse c.render = .ok c := by
  refine ⟨fun c => ⟨Chain.writable_of_parse, Chain.Writable.parse_render⟩, fun source c h => ?_⟩
  have hwritable := Chain.writable_of_parse h
  exact ⟨hwritable, hwritable.parse_render⟩

end FilterLang
