import FilterLang.Proofs.Token.MaximalMunch

/-! Where a token ends. Blank text and a closing parenthesis go on with no token but an open
quotation, so what follows them does not matter to the tokens before: a text that scans gives the
same tokens, at offsets moved as the text is, in front of blank text, of a closing parenthesis and
of nothing. -/

namespace FilterLang

/-- The token at the offset that a map gives for its own. -/
def Placed.relocate (f : Nat → Nat) (t : Placed) : Placed := { t with offset := f t.offset }

theorem Placed.map_relocate_zero (ts : List Placed) : ts.map (relocate (0 + ·)) = ts := by
  have hzero : relocate (0 + ·) = id := by
    funext t
    rw [relocate, Nat.zero_add, id]
  rw [hzero, List.map_id]

namespace Token

variable {p q : Progress} {c : Char} {w rest more : List Char}

/-- What cannot go on with a token: blank text, a closing parenthesis, or nothing. -/
def EndsLexeme (cs : List Char) : Prop := ∀ c, cs.head? = some c → isSpace c ∨ c = ')'

theorem endsLexeme_nil : EndsLexeme [] := by
  rintro c ⟨⟩

theorem endsLexeme_cons (h : isSpace c ∨ c = ')') (cs : List Char) : EndsLexeme (c :: cs) := by
  intro d hd
  obtain rfl : c = d := by simpa using hd
  exact h

theorem IsBlank.endsLexeme (h : IsBlank w) (hne : w ≠ []) (rest : List Char) :
    EndsLexeme (w ++ rest) := by
  obtain ⟨c, w, rfl⟩ := List.exists_cons_of_ne_nil hne
  exact endsLexeme_cons (.inl (h c List.mem_cons_self)) _

namespace Progress

/-- Nothing, blank text or a part of a quotation has been read. -/
def IsOpen : Progress → Prop
  | .start => True
  | .sign .blank => True
  | .quoted => True
  | .escape => True
  | _ => False

theorem not_isOpen_of_kind? {k : Kind} (h : p.kind? = some k) (hne : k ≠ .sign .blank) :
    ¬p.IsOpen := by
  cases p with
  | sign t =>
    obtain rfl := Option.some.inj h
    cases t <;> simp_all [IsOpen]
  | _ => first | exact id | cases h

/-- Nothing but an open text goes on with the end of a lexeme. -/
theorem isOpen_of_step?_ends (h : p.step? c = some q) (hc : isSpace c ∨ c = ')') : p.IsOpen := by
  have hclasses : c.isDigit = false ∧ isMark c = false ∧ continuesWord c = false ∧ c ≠ '.' ∧
      c ≠ '+' ∧ c ≠ '-' ∧ c ≠ '=' := by
    rw [isSpace_iff] at hc
    rcases hc with (rfl | rfl | rfl | rfl | rfl) | rfl <;> decide
  rw [step?_eq_some_iff] at h
  cases p with
  | sign t =>
    cases t with
    | relation r => cases r <;> simp_all
    | blank => trivial
    | _ => exact h.elim
  | start => trivial
  | quoted => trivial
  | escape => trivial
  | _ => simp_all

/-- What is open has been open from the beginning. -/
theorem isOpen_of_step? (h : p.step? c = some q) (hq : q.IsOpen) : p.IsOpen := by
  rw [step?_eq_some_iff] at h
  cases p with
  | sign t =>
    cases t with
    | relation r => cases r <;> simp_all [IsOpen]
    | blank => trivial
    | _ => exact h.elim
  | start => trivial
  | quoted => trivial
  | escape => trivial
  | _ => grind [IsOpen]

theorem isOpen_of_read (h : p.read w = some q) (hq : q.IsOpen) : p.IsOpen := by
  induction w generalizing p with
  | nil => exact Option.some.inj h ▸ hq
  | cons c w ih =>
    obtain ⟨p', hstep, hread⟩ := Option.bind_eq_some_iff.mp h
    exact isOpen_of_step? hstep (ih hread)

end Progress

/-! ### The longest match -/

section Matches

variable {pattern : Pattern} {t : Token} {found : List Placed} {offset : Nat}

/-- Where the automaton stops behind a text of some pattern, no longer front is of any. -/
theorem longestFront_of_stops (hlex : IsLexeme w) (hread : Progress.start.read w = some q)
    (hstop : ∀ c, rest.head? = some c → q.step? c = none) :
    LongestFront IsLexeme w (w ++ rest) where
  front := List.prefix_append w rest
  holds := hlex
  longest v hv hlex' := by
    by_contra hlen
    obtain ⟨u, rfl⟩ := List.prefix_of_prefix_length_le (List.prefix_append w rest) hv (by omega)
    rw [List.prefix_append_right_inj] at hv
    obtain ⟨c, u, rfl⟩ := List.exists_cons_of_ne_nil (l := u) (by rintro rfl; simp at hlen)
    have hc : rest.head? = some c := by
      obtain ⟨v, rfl⟩ := hv
      rfl
    obtain ⟨k, hk, -⟩ := isLexeme_iff.mp hlex'
    rw [kindOf?, Progress.read_append, hread, Option.bind_some,
      Progress.read_cons_eq_none (hstop c hc)] at hk
    cases hk

theorem IsLexeme.exists_read (h : IsLexeme w) :
    ∃ q, Progress.start.read w = some q ∧ ¬q.IsOpen := by
  obtain ⟨k, hk, hne⟩ := isLexeme_iff.mp h
  obtain ⟨q, hread, hkind⟩ := Option.bind_eq_some_iff.mp hk
  exact ⟨q, hread, Progress.not_isOpen_of_kind? hkind hne⟩

/-- The longest match stays the longest when the end of a lexeme follows the text. -/
theorem LongestFront.append_ends (h : LongestFront IsLexeme w (w ++ rest))
    (hmore : EndsLexeme more) : LongestFront IsLexeme w (w ++ (rest ++ more)) where
  front := List.prefix_append w _
  holds := h.holds
  longest v hv hlex := by
    by_contra hlen
    rw [← List.append_assoc] at hv
    -- A longer match would go beyond the text, which has then been open from the match on.
    have hlong : (w ++ rest).length < v.length := by
      by_contra hshort
      have hfront := List.prefix_of_prefix_length_le hv (List.prefix_append (w ++ rest) more)
        (by omega)
      exact hlen (h.longest v hfront hlex)
    obtain ⟨u, rfl⟩ := List.prefix_of_prefix_length_le (List.prefix_append _ more) hv (by omega)
    rw [List.prefix_append_right_inj] at hv
    obtain ⟨c, u, rfl⟩ := List.exists_cons_of_ne_nil (l := u) (by rintro rfl; simp at hlong)
    have hc : more.head? = some c := by
      obtain ⟨v, rfl⟩ := hv
      rfl
    obtain ⟨p, hp, hopen⟩ := h.holds.exists_read
    obtain ⟨q, hq, -⟩ := hlex.exists_read
    rw [Progress.read_append, Progress.read_append, hp, Option.bind_some] at hq
    obtain ⟨p', hp', hread⟩ := Option.bind_eq_some_iff.mp hq
    obtain ⟨q', hstep, -⟩ := Option.bind_eq_some_iff.mp hread
    exact hopen (Progress.isOpen_of_read hp' (Progress.isOpen_of_step?_ends hstep (hmore c hc)))

theorem longestFront_of_ends (hlex : IsLexeme w) (hrest : EndsLexeme rest) :
    LongestFront IsLexeme w (w ++ rest) := by
  obtain ⟨q, hread, hopen⟩ := hlex.exists_read
  apply longestFront_of_stops hlex hread
  intro c hc
  cases hstep : q.step? c with
  | none => rfl
  | some q' => exact absurd (Progress.isOpen_of_step?_ends hstep (hrest c hc)) hopen

/-- The text of a token is taken for it where the end of a lexeme follows. -/
theorem scanFrom_reads (hp : pattern.Reads w) (ht : pattern.token? w = some t)
    (hrest : EndsLexeme rest) :
    scanFrom found offset 0 (w ++ rest) =
      scanFrom (⟨t, offset⟩ :: found) (offset + byteCount w) 0 rest :=
  scanFrom_token hp ht (longestFront_of_ends ⟨pattern, hp.1⟩ hrest)

/-- A parenthesis is a token of its own, whatever follows. -/
theorem scanFrom_leftParen (found : List Placed) (offset : Nat) (rest : List Char) :
    scanFrom found offset 0 ('(' :: rest) = scanFrom (⟨.leftParen, offset⟩ :: found)
      (offset + 1) 0 rest :=
  scanFrom_token (p := .leftParen) ⟨rfl, by simp⟩ rfl
    (longestFront_of_stops ⟨.leftParen, rfl⟩ rfl fun _ _ => rfl)

theorem scanFrom_rightParen (found : List Placed) (offset : Nat) (rest : List Char) :
    scanFrom found offset 0 (')' :: rest) = scanFrom (⟨.rightParen, offset⟩ :: found)
      (offset + 1) 0 rest :=
  scanFrom_token (p := .rightParen) ⟨rfl, by simp⟩ rfl
    (longestFront_of_stops ⟨.rightParen, rfl⟩ rfl fun _ _ => rfl)

end Matches

/-! ### Texts in front of others -/

/-- A text that scans is scanned alike at another offset and in front of the end of a lexeme. -/
theorem MaximalMunch.scanFrom_append {offset : Nat} {cs more : List Char}
    {r : Except ParseError (List Placed)} (h : MaximalMunch offset cs r)
    (hmore : EndsLexeme more) (d : Nat) :
    ∀ ts, r = .ok ts → ∀ found, scanFrom found (d + offset) 0 (cs ++ more) =
      scanFrom ((ts.map (Placed.relocate (d + ·))).reverse ++ found)
        (d + offset + byteCount cs) 0 more := by
  induction h with
  | done hgap =>
    intro ts hts found
    obtain rfl := Except.ok.inj hts
    exact scanFrom_blank hgap more
  | @token offset gap lexeme rest p t r hgap _ hlong hp ht _ ih =>
    intro ts hts found
    cases r with
    | error e => cases hts
    | ok us =>
      obtain rfl := Except.ok.inj hts
      rw [List.append_assoc, List.append_assoc, scanFrom_blank hgap,
        scanFrom_token hp ht (hlong.append_ends hmore)]
      have hoffset : d + offset + byteCount gap + byteCount lexeme =
          d + (offset + byteCount gap + byteCount lexeme) := by omega
      rw [hoffset, ih us rfl]
      simp only [List.map_cons, List.reverse_cons, List.append_assoc, List.cons_append,
        List.nil_append, Placed.relocate, byteCount_append, Nat.add_assoc]
  | malformed => rintro ts ⟨⟩
  | stuck => rintro ts ⟨⟩

theorem scanFrom_append {source : String} {ts : List Placed} {more : List Char}
    (h : scan source = .ok ts) (hmore : EndsLexeme more) (found : List Placed) (offset : Nat) :
    scanFrom found offset 0 (source.toList ++ more) =
      scanFrom ((ts.map (Placed.relocate (offset + ·))).reverse ++ found)
        (offset + byteCount source.toList) 0 more :=
  (scanFrom_zero_eq_iff.mp h).scanFrom_append hmore offset ts rfl found

end Token

end FilterLang
