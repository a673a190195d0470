import FilterLang.Proofs.Expr.Discovery
import FilterLang.Proofs.Expr.ErrorPlaces
import FilterLang.Proofs.Expr.RoundTrip
import Mathlib.Logic.Function.Iterate

/-! The symbols of a tree are exactly its names. The search comes to the tree and to the contents of
each group once, in an order of its own, so it is through after as many turns; what it has found by
then are the names on the sides of the comparisons, in ascending order. Read from left to right,
these are also the names among the tokens that spell the tree, so the symbols of a source are the
texts of its names. -/

namespace FilterLang

namespace Search

/-- The search before its first turn. -/
def start (c : Chain) : Search := ⟨[c], .empty⟩

/-- One turn of the search: it looks at the chain put off last, if there is one. -/
def turn : Search → Search
  | ⟨[], found⟩ => ⟨[], found⟩
  | ⟨c :: rest, found⟩ => chain ⟨rest, found⟩ c

/-! ### The turns of a search -/

theorem work_start (c : Chain) : (start c).work = c.groupCount + 1 := by
  simp [start, work]

theorem work_eq_zero_iff {s : Search} : s.work = 0 ↔ s.pending = [] := by
  obtain ⟨pending, found⟩ := s
  cases pending <;> simp [work]

/-- The groups found in a turn have still to be looked at, and the chain looked at has not. -/
theorem work_turn (s : Search) : s.turn.work = s.work - 1 := by
  obtain ⟨pending, found⟩ := s
  cases pending with
  | nil => rfl
  | cons c rest =>
    rw [turn, work_chain]
    simp [work]

theorem work_iterate (s : Search) (n : Nat) : (turn^[n] s).work = s.work - n := by
  induction n generalizing s with
  | zero => rfl
  | succ n ih => rw [Function.iterate_succ_apply, ih, work_turn, Nat.sub_sub, Nat.add_comm]

theorem finish_turn (s : Search) : s.turn.finish = s.finish := by
  obtain ⟨pending, found⟩ := s
  cases pending with
  | nil => rfl
  | cons c rest => rw [turn, finish]

theorem finish_iterate (s : Search) (n : Nat) : (turn^[n] s).finish = s.finish := by
  induction n generalizing s with
  | zero => rfl
  | succ n ih => rw [Function.iterate_succ_apply, ih, finish_turn]

/-- A search is through when it has had a turn for every chain, and not before. -/
theorem pending_iterate_eq_nil_iff (c : Chain) (n : Nat) :
    (turn^[n] (start c)).pending = [] ↔ c.groupCount < n := by
  rw [← work_eq_zero_iff, work_iterate, work_start]
  omega

theorem finish_of_pending {s : Search} (h : s.pending = []) : s.finish = s.found := by
  obtain ⟨pending, found⟩ := s
  obtain rfl : pending = [] := h
  rw [finish]

end Search

/-! ### Names among tokens -/

/-- The name that a token is, if it is one. -/
def Token.name? : Token → Option String
  | .name n => some n
  | _ => none

theorem Token.name?_eq_some_iff {t : Token} {n : String} : t.name? = some n ↔ t = .name n := by
  cases t <;> simp [name?]

theorem Comparison.names_eq_tokens (c : Comparison) : c.names = c.tokens.filterMap Token.name? := by
  obtain ⟨left, relation, right⟩ := c
  cases left <;> cases right <;> rfl

mutual

theorem Expr.names_eq_tokens : (e : Expr) → e.names = e.tokens.filterMap Token.name?
  | .comparison c => by
    rw [Expr.names, Expr.comparisons, List.flatMap_singleton, c.names_eq_tokens, Expr.tokens]
  | .group inner => by
    have hinner : (Expr.group inner).names = inner.names := rfl
    rw [hinner, Chain.names_eq_tokens inner]
    simp [Expr.tokens, List.filterMap_cons, Token.name?]

/-- The names in a chain are those among its tokens, in their order. -/
theorem Chain.names_eq_tokens : (c : Chain) → c.names = c.tokens.filterMap Token.name?
  | .one item => Expr.names_eq_tokens item
  | .join before k item => by
    rw [Chain.names_join, Chain.names_eq_tokens before, Expr.names_eq_tokens item]
    simp [Chain.tokens, List.filterMap_cons, Token.name?]

end

theorem Chain.mem_names_iff {c : Chain} {name : String} :
    name ∈ c.names ↔ ∃ d ∈ c.comparisons, d.left = .symbol name ∨ d.right = .symbol name := by
  have hside : ∀ o : Operand, name ∈ o.names ↔ o = .symbol name := by
    intro o
    cases o <;> simp [Operand.names, eq_comm]
  simp [names, Comparison.names, hside]

theorem Chain.mem_symbols_iff_tokens {c : Chain} {name : String} :
    name ∈ c.symbols ↔ Token.name name ∈ c.tokens := by
  rw [mem_symbols, names_eq_tokens, List.mem_filterMap]
  simp [Token.name?_eq_some_iff]

/-- A name is read from no text but its own. -/
theorem eq_of_readsAs_name {cs : List Char} {name : String} (h : ReadsAs cs (.name name)) :
    String.ofList cs = name := by
  obtain ⟨pattern, -, ht⟩ := h
  cases pattern <;> simp_all [Token.Pattern.token?]

/-- The search for the symbols of a tree is through after one turn for the tree and one for each of
its groups, and not before. It has then found, in ascending order, the names that stand on either
side of a comparison at any depth, and no others. If the tree is that of a source, these are the
names among the tokens of the source, where they stand with their texts. -/
theorem Chain.symbols_exact :
    (∀ c : Chain,
      (∀ n, (Search.turn^[n] (.start c)).pending = [] ↔ c.groupCount < n) ∧
      (∀ n, c.groupCount < n → (Search.turn^[n] (.start c)).found.names = c.symbols) ∧
      Ascending c.symbols ∧
      ∀ name, name ∈ c.symbols ↔
        ∃ d ∈ c.comparisons, d.left = .symbol name ∨ d.right = .symbol name) ∧
    ∀ source c, parse source = .ok c → ∃ ts, Token.scan source = .ok ts ∧
      (∀ name, name ∈ c.symbols ↔ ∃ t ∈ ts, t.token = .name name) ∧
      ∀ t ∈ ts, ∀ name, t.token = .name name → StandsAt source t.offset name := by
  refine ⟨fun c => ⟨Search.pending_iterate_eq_nil_iff c, fun n hn => ?_, ?_, fun name => ?_⟩,
    fun source c hparse => ?_⟩
  · have hpending := (Search.pending_iterate_eq_nil_iff c n).mpr hn
    rw [← Search.finish_of_pending hpending, Search.finish_iterate]
    rfl
  · exact (Search.finish _).ascending
  · rw [mem_symbols, mem_names_iff]
  · obtain ⟨ts, hscan, htokens, -⟩ := parse_eq_ok_iff.mp hparse
    refine ⟨ts, hscan, fun name => ?_, fun t ht name hname => ?_⟩
    · rw [mem_symbols_iff_tokens, ← htokens, List.mem_map]
    · obtain ⟨lexeme, hreads, hstands⟩ := exists_standsAt hscan ht
      rw [hname] at hreads
      rwa [eq_of_readsAs_name hreads] at hstands

/-- In a source with groups inside each other, `b` stands twice and `a` also between quotes. -/
theorem Chain.symbols_exact_nested :
    let source := "((b = 1) and a < b) or \"a\" = c"
    let c : Chain := .join (.one (.group (.join (.one (.group (.one (.comparison
      ⟨.symbol "b", .equal, .literal (.integer 1)⟩)))) .and
      (.comparison ⟨.symbol "a", .less, .symbol "b"⟩)))) .or
      (.comparison ⟨.literal (.text "a"), .equal, .symbol "c"⟩)
    parse source = .ok c ∧ c.symbols = ["a", "b", "c"] ∧
      (∀ n, (Search.turn^[n] (.start c)).pending = [] ↔ 2 < n) ∧
      ∃ ts, Token.scan source = .ok ts ∧ ∀ name ∈ c.symbols, ∃ t ∈ ts, t.token = .name name := by
  intro source c
  have hparse : parse source = .ok c := by decide +kernel
  obtain ⟨ts, hscan, htokens, -⟩ := Chain.symbols_exact.2 source c hparse
  exact ⟨hparse, by decide +kernel, (Chain.symbols_exact.1 c).1, ts, hscan,
    fun name => (htokens name).mp⟩

end FilterLang
