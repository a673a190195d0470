import FilterLang.Proofs.Text.Escapes

/-! Quotations. Between quotes a text is spelled character by character, where the quote has to be
escaped. What a character is written as is one of its spellings, whichever characters are escaped,
so a quoted text reads back. -/

namespace FilterLang.Text.Quoted

/-- The ways to spell a character between quotes, where the quote does not spell itself. -/
def Spelling (piece : List Char) (c : Char) : Prop := Piece piece c ∧ piece ≠ ['"']

theorem spelling_self {c : Char} (hquote : c ≠ '"') (hslash : c ≠ '\\') : Spelling [c] c :=
  ⟨.itself hslash, fun h => hquote (List.singleton_inj.mp h)⟩

/-- The quotation whose body is put together from the pieces. -/
def quotation (pieces : List (List Char)) : List Char := '"' :: (pieces.flatten ++ ['"'])

theorem spells_flatten {pieces : List (List Char)} {text : List Char}
    (h : List.Forall₂ Spelling pieces text) : Spells pieces.flatten text := by
  induction h with
  | nil => exact .nil
  | cons hpiece _ ih => exact .cons hpiece.1 ih

theorem piece_written (c : Char) : Piece (written c) c := by
  unfold written
  split
  case h_7 hne =>
    split
    · exact .itself (by simpa using hne)
    · exact .braced (Hex.denotes_numeral c.toNat)
  all_goals exact .named (by decide)

theorem written_ne_quote (c : Char) : written c ≠ ['"'] := by
  unfold written
  split
  case h_7 hquote _ =>
    split
    · simpa using hquote
    · simp [codeEscape]
  all_goals decide

theorem spelling_written (cs : List Char) : List.Forall₂ Spelling (cs.map written) cs := by
  induction cs with
  | nil => exact .nil
  | cons c cs ih => exact .cons ⟨piece_written c, written_ne_quote c⟩ ih

theorem quotation_written (cs : List Char) : quotation (cs.map written) = encode cs := rfl

/-- A quoted text reads back. -/
theorem decode_body (cs : List Char) : decode (body cs) = some cs :=
  (spells_flatten (spelling_written cs)).decode_eq

end FilterLang.Text.Quoted
