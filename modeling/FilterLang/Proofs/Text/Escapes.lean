import FilterLang.Proofs.Text.Hex
import FilterLang.Text.Quoted

/-! What the body of a quoted text may hold. It is put together from pieces, each of which spells
one character: the character itself, unless it is the backslash, an escape by a letter or sign, or
a code. Every such body is read as the characters it spells. Nothing else is read, with one
exception: a code after `x`, which has two digits elsewhere, may have a single one at the end. -/

namespace FilterLang.Text.Quoted

/-- The letters and signs that make an escape, with the characters that these spell. -/
def namedEscapes : List (Char × Char) :=
  [('"', '"'), ('\\', '\\'), ('/', '/'), ('\'', '\''), ('n', '\n'), ('r', '\r'), ('t', '\t'),
    ('0', '\x00'), ('a', '\x07'), ('b', '\x08'), ('f', '\x0c'), ('v', '\x0b')]

/-- The ways to spell a character. -/
inductive Piece : List Char → Char → Prop where
  | itself {c : Char} : c ≠ '\\' → Piece [c] c
  | named {letter c : Char} : (letter, c) ∈ namedEscapes → Piece ['\\', letter] c
  | ascii {digits : List Char} {c : Char} : digits.length = 2 → Hex.Denotes digits c.toNat →
      c.toNat < 128 → Piece ('\\' :: 'x' :: digits) c
  | four {digits : List Char} {c : Char} : digits.length = 4 → Hex.Denotes digits c.toNat →
      Piece ('\\' :: 'u' :: digits) c
  | braced {digits : List Char} {c : Char} : Hex.Denotes digits c.toNat →
      Piece ('\\' :: 'u' :: '\x7b' :: (digits ++ ['\x7d'])) c

/-- The body is a sequence of pieces that spell the characters of the text. -/
inductive Spells : (body text : List Char) → Prop where
  | nil : Spells [] []
  | cons {piece body text : List Char} {c : Char} : Piece piece c → Spells body text →
      Spells (piece ++ body) (c :: text)

/-- The body is a sequence of pieces and then the code of a character after `x`, of which the end
leaves a single digit. -/
def SpellsCut (body text : List Char) : Prop :=
  ∃ before digit start c, body = before ++ ['\\', 'x', digit] ∧ text = start ++ [c] ∧
    Spells before start ∧ Hex.Denotes [digit] c.toNat

section

variable {piece rest body text seen : List Char} {c : Char} {n : Nat}

theorem letterEscape?_eq_some_iff {letter : Char} :
    letterEscape? letter = some c ↔ (letter, c) ∈ namedEscapes := by
  unfold letterEscape?
  split <;> simp_all [namedEscapes, eq_comm]

theorem takeWhile_denotes {digits : List Char} (h : Hex.Denotes digits n) (rest : List Char) :
    (digits ++ '\x7d' :: rest).takeWhile (· ≠ '\x7d') = digits ∧
      (digits ++ '\x7d' :: rest).dropWhile (· ≠ '\x7d') = '\x7d' :: rest := by
  have hdigits : ∀ d ∈ digits, decide (d ≠ '\x7d') := by
    intro d hd
    have hdigit := h.isDigit hd
    rw [decide_eq_true_eq]
    rintro rfl
    cases hdigit
  constructor
  · rw [List.takeWhile_append_of_pos hdigits]
    simp
  · rw [List.dropWhile_append_of_pos hdigits]
    simp

/-- An escape reads as the character that it spells, whatever follows. -/
theorem escape?_piece (h : Piece ('\\' :: piece) c) (rest : List Char) :
    escape? (piece ++ rest) = some (c, piece.length) := by
  cases h with
  | itself hc => exact absurd rfl hc
  | named hletter =>
    simp only [namedEscapes, List.mem_cons, Prod.mk.injEq, List.not_mem_nil, or_false] at hletter
    rcases hletter with ⟨rfl, rfl⟩ | ⟨rfl, rfl⟩ | ⟨rfl, rfl⟩ | ⟨rfl, rfl⟩ | ⟨rfl, rfl⟩ | ⟨rfl, rfl⟩ |
      ⟨rfl, rfl⟩ | ⟨rfl, rfl⟩ | ⟨rfl, rfl⟩ | ⟨rfl, rfl⟩ | ⟨rfl, rfl⟩ | ⟨rfl, rfl⟩ <;> rfl
  | @ascii digits _ hlength hdenotes hsmall =>
    have htake : (digits ++ rest).take 2 = digits := List.take_left' hlength
    rw [List.cons_append, escape?]
    simp only [htake, Hex.value?_eq_some_iff.mpr hdenotes, hsmall, ↓reduceIte, Char.ofNat_toNat,
      List.length_cons]
  | @four digits _ hlength hdenotes =>
    have htake : (digits ++ rest).take 4 = digits := List.take_left' hlength
    have hbrace : ∀ tail, digits ++ rest ≠ '\x7b' :: tail := by
      intro tail htail
      cases digits with
      | nil => cases hlength
      | cons d ds =>
        obtain rfl : d = '\x7b' := (List.cons.inj htail).1
        exact nomatch hdenotes.isDigit List.mem_cons_self
    rw [List.cons_append, escape?]
    · simp only [htake, hlength, Nat.lt_irrefl, ↓reduceIte,
        Hex.value?_bind_character?_eq_some_iff.mpr hdenotes, Option.map_some, List.length_cons]
    · exact hbrace
  | @braced digits _ hdenotes =>
    obtain ⟨htake, hdrop⟩ := takeWhile_denotes hdenotes rest
    simp only [List.cons_append, List.append_assoc, List.nil_append, escape?, htake, hdrop,
      Hex.value?_bind_character?_eq_some_iff.mpr hdenotes, Option.map_some, List.length_cons,
      List.length_append, List.length_nil]

theorem decodeFrom_pass (seen cs rest : List Char) :
    decodeFrom seen cs.length (cs ++ rest) = decodeFrom seen 0 rest := by
  induction cs with
  | nil => rfl
  | cons c cs ih => exact ih

theorem decodeFrom_piece (seen : List Char) (h : Piece piece c) (rest : List Char) :
    decodeFrom seen 0 (piece ++ rest) = decodeFrom (c :: seen) 0 rest := by
  have hescape : ∀ p, piece = '\\' :: p →
      decodeFrom seen 0 (piece ++ rest) = decodeFrom (c :: seen) 0 rest := by
    rintro p rfl
    rw [List.cons_append, decodeFrom, if_pos rfl, escape?_piece h]
    exact decodeFrom_pass (c :: seen) p rest
  cases h with
  | itself hc => simp [decodeFrom, hc]
  | _ => exact hescape _ rfl

theorem Spells.decodeFrom_eq (h : Spells body text) (seen rest : List Char) :
    decodeFrom seen 0 (body ++ rest) = decodeFrom (text.reverse ++ seen) 0 rest := by
  induction h generalizing seen with
  | nil => rfl
  | cons hpiece _ ih =>
    rw [List.append_assoc, decodeFrom_piece seen hpiece, ih, List.reverse_cons,
      List.append_assoc, List.singleton_append]

/-- A body is read as the text that it spells. -/
theorem Spells.decode_eq (h : Spells body text) : decode body = some text := by
  have hread := h.decodeFrom_eq [] []
  rw [List.append_nil, List.append_nil, decodeFrom, List.reverse_reverse] at hread
  exact hread

theorem exists_of_dropWhile_ne_nil (h : rest.dropWhile (· ≠ '\x7d') ≠ []) :
    ∃ tail, rest = rest.takeWhile (· ≠ '\x7d') ++ '\x7d' :: tail := by
  have hhead := List.head_dropWhile_not (· ≠ '\x7d') h
  have htail := List.cons_head_tail h
  rw [decide_eq_false_iff_not, not_not] at hhead
  rw [hhead] at htail
  exact ⟨_, by rw [htail, List.takeWhile_append_dropWhile]⟩

/-- What is read as an escape is one, or a code after `x` that the end cuts short. -/
theorem exists_piece_of_escape? (h : escape? rest = some (c, n)) :
    (∃ piece tail, rest = piece ++ tail ∧ n = piece.length ∧ Piece ('\\' :: piece) c) ∨
      ∃ digit, rest = ['x', digit] ∧ n = 2 ∧ Hex.Denotes [digit] c.toNat := by
  unfold escape? at h
  split at h
  case h_1 rest =>
    dsimp only at h
    split at h
    next m hm =>
      split at h
      next hsmall =>
        cases h
        have hdenotes := Hex.value?_eq_some_iff.mp hm
        have hc := Hex.toNat_ofNat m hsmall
        rw [← hc] at hsmall hdenotes
        match rest with
        | [] => exact absurd rfl hdenotes.1
        | [digit] => exact .inr ⟨digit, rfl, rfl, hdenotes⟩
        | a :: b :: tail => exact .inl ⟨['x', a, b], tail, rfl, rfl, .ascii rfl hdenotes hsmall⟩
      next => cases h
    next => cases h
  case h_2 rest =>
    dsimp only at h
    split at h
    next => cases h
    next hclosed =>
      obtain ⟨e, he, heq⟩ := Option.map_eq_some_iff.mp h
      cases heq
      obtain ⟨tail, hrest⟩ := exists_of_dropWhile_ne_nil hclosed
      refine .inl ⟨'u' :: '\x7b' :: (rest.takeWhile (· ≠ '\x7d') ++ ['\x7d']), tail, ?_, by simp,
        .braced (Hex.value?_bind_character?_eq_some_iff.mp he)⟩
      simpa using hrest
  case h_3 rest _ =>
    dsimp only at h
    split at h
    next => cases h
    next hlength =>
      obtain ⟨e, he, heq⟩ := Option.map_eq_some_iff.mp h
      cases heq
      have hfour : (rest.take 4).length = 4 :=
        Nat.le_antisymm (List.length_take_le 4 rest) (Nat.le_of_not_lt hlength)
      refine .inl ⟨'u' :: rest.take 4, rest.drop 4, by simp, by simp [hfour],
        .four hfour (Hex.value?_bind_character?_eq_some_iff.mp he)⟩
  case h_4 letter tail _ _ _ =>
    obtain ⟨e, he, heq⟩ := Option.map_eq_some_iff.mp h
    cases heq
    exact .inl ⟨[letter], tail, rfl, rfl, .named (letterEscape?_eq_some_iff.mp he)⟩
  case h_5 => cases h

theorem SpellsCut.cons (hpiece : Piece piece c) (h : SpellsCut body text) :
    SpellsCut (piece ++ body) (c :: text) := by
  obtain ⟨before, digit, start, e, rfl, rfl, hbefore, hdigit⟩ := h
  exact ⟨piece ++ before, digit, c :: start, e, (List.append_assoc _ _ _).symm, rfl,
    .cons hpiece hbefore, hdigit⟩

/-- What is read is a sequence of pieces, up to a code that the end may cut short. -/
theorem spells_of_decodeFrom {seen body text : List Char}
    (h : decodeFrom seen 0 body = some text) :
    ∃ cs, text = seen.reverse ++ cs ∧ (Spells body cs ∨ SpellsCut body cs) := by
  match body with
  | [] =>
    cases h
    exact ⟨[], by simp, .inl .nil⟩
  | c :: rest =>
    rw [decodeFrom] at h
    split at h
    next hc =>
      subst hc
      split at h
      next e n hescape =>
        rcases exists_piece_of_escape? hescape with
          ⟨piece, tail, hrest, rfl, hpiece⟩ | ⟨digit, rfl, rfl, hdigit⟩
        · have htail : tail.length ≤ rest.length := by
            rw [hrest, List.length_append]
            exact Nat.le_add_left _ _
          rw [hrest, decodeFrom_pass] at h
          obtain ⟨cs, rfl, hcs⟩ := spells_of_decodeFrom h
          rw [hrest]
          exact ⟨e :: cs, by simp, hcs.imp (.cons hpiece) (.cons hpiece)⟩
        · cases h
          exact ⟨[e], by simp, .inr ⟨[], digit, [], e, rfl, rfl, .nil, hdigit⟩⟩
      next => cases h
    next hc =>
      obtain ⟨cs, rfl, hcs⟩ := spells_of_decodeFrom h
      exact ⟨c :: cs, by simp, hcs.imp (.cons (.itself hc)) (.cons (.itself hc))⟩
termination_by body.length
decreasing_by
  · exact Nat.lt_succ_self _
  · exact Nat.lt_succ_of_le htail

theorem SpellsCut.decode_eq (h : SpellsCut body text) : decode body = some text := by
  obtain ⟨before, digit, start, c, rfl, rfl, hbefore, hdigit⟩ := h
  have hsmall : c.toNat < 128 := Nat.lt_trans hdigit.lt_of_singleton (by decide)
  have hescape : escape? ['x', digit] = some (c, 2) := by
    simp [escape?, Hex.value?_eq_some_iff.mpr hdigit, hsmall]
  rw [decode, hbefore.decodeFrom_eq, decodeFrom, if_pos rfl, hescape]
  simp [decodeFrom]

/-- Exactly those bodies are read that are put together from pieces, as the characters these spell,
and those that go on after such pieces with `x` and a single digit and end there. -/
theorem decode_eq_some_iff : decode body = some text ↔ Spells body text ∨ SpellsCut body text := by
  constructor
  · intro h
    obtain ⟨cs, rfl, hcs⟩ := spells_of_decodeFrom h
    exact hcs
  · rintro (h | h)
    · exact h.decode_eq
    · exact h.decode_eq

theorem Spells.exists_piece (h : Spells body text) (hbody : body ≠ []) :
    ∃ piece rest c, body = piece ++ rest ∧ Piece piece c := by
  cases h with
  | nil => exact absurd rfl hbody
  | cons hpiece => exact ⟨_, _, _, rfl, hpiece⟩

/-- Whatever is read is put together from pieces. -/
def ReadsPiecesOnly : Prop := ∀ body text, decode body = some text → Spells body text

/-- A single digit after `x` makes no piece, yet it is read. -/
theorem not_readsPiecesOnly : ¬ReadsPiecesOnly := by
  intro h
  have hspells : Spells ['\\', 'x', '4'] ['\x04'] := h _ _ rfl
  obtain ⟨piece, rest, c, hbody, hpiece⟩ := hspells.exists_piece (List.cons_ne_nil _ _)
  cases hpiece with
  | itself hc => exact hc (List.cons.inj hbody).1.symm
  | named hletter =>
    cases hbody
    simp [namedEscapes] at hletter
  | ascii hlength =>
    have hlengths := congrArg List.length hbody
    simp only [List.length_cons, List.length_nil, List.length_append] at hlengths
    omega
  | four => cases hbody
  | braced => cases hbody

end

end FilterLang.Text.Quoted
