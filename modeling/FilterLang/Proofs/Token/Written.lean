import FilterLang.Proofs.Binary64.Text
import FilterLang.Proofs.Token.Quotation
import FilterLang.Value

/-! How written text scans. A text writes a sequence of tokens if scanning it gives these tokens
wherever it stands, as long as blank text, a closing parenthesis or nothing follows. So a token's
text writes the token, and texts with a space between them or with parentheses around them write
what their parts write. -/

namespace FilterLang.Token

open Computability
open Text

/-- Scanning the text gives the tokens, wherever it stands and whatever was found before. -/
structure Writes (cs : List Char) (ts : List Token) : Prop where
  begins : ∀ rest, BeginsLexeme (cs ++ rest)
  scan : ∀ found offset rest, EndsLexeme rest → ∃ placed : List Placed,
    placed.map Placed.token = ts ∧
      scanFrom found offset 0 (cs ++ rest) =
        scanFrom (placed.reverse ++ found) (offset + byteCount cs) 0 rest

/-- The text of a token writes it. -/
theorem Writes.of_reads {p : Pattern} {t : Token} {w : List Char} (hp : p.Reads w)
    (ht : p.token? w = some t) : Writes w [t] where
  begins := hp.begins
  scan _ offset _ hrest := ⟨[⟨t, offset⟩], rfl, scanFrom_reads hp ht hrest⟩

namespace Writes

variable {cs ds : List Char} {ts us : List Token}

/-- Texts with a space between them. -/
theorem append (hcs : Writes cs ts) (hds : Writes ds us) :
    Writes (cs ++ ' ' :: ds) (ts ++ us) where
  begins rest := by
    rw [List.append_assoc]
    exact hcs.begins _
  scan found offset rest hrest := by
    have hspace : EndsLexeme (' ' :: (ds ++ rest)) := endsLexeme_cons (.inl rfl) _
    obtain ⟨first, hfirst, hscan⟩ := hcs.scan found offset _ hspace
    have hgap : scanFrom (first.reverse ++ found) (offset + byteCount cs) 0
        ([' '] ++ (ds ++ rest)) = _ :=
      scanFrom_gap (by simp [IsBlank, isSpace]) (hds.begins rest)
    obtain ⟨second, hsecond, hscan'⟩ :=
      hds.scan (first.reverse ++ found) (offset + byteCount cs + byteCount [' ']) rest hrest
    refine ⟨first ++ second, by rw [List.map_append, hfirst, hsecond], ?_⟩
    rw [List.append_assoc, List.cons_append, hscan]
    refine hgap.trans (hscan'.trans ?_)
    rw [List.reverse_append, List.append_assoc]
    congr 1
    simp only [byteCount_append, byteCount_cons, byteCount_nil]
    omega

/-- A text between parentheses. -/
theorem parens (hcs : Writes cs ts) :
    Writes ('(' :: (cs ++ [')'])) (.leftParen :: (ts ++ [.rightParen])) where
  begins rest := by
    intro c hc
    obtain rfl : '(' = c := by simpa using hc
    decide
  scan found offset rest hrest := by
    obtain ⟨placed, hplaced, hscan⟩ := hcs.scan (⟨.leftParen, offset⟩ :: found) (offset + 1)
      (')' :: rest) (endsLexeme_cons (.inr rfl) rest)
    refine ⟨⟨.leftParen, offset⟩ :: (placed ++ [⟨.rightParen, offset + 1 + byteCount cs⟩]),
      by simp [hplaced], ?_⟩
    rw [List.cons_append, List.append_assoc, scanFrom_leftParen]
    refine hscan.trans ((scanFrom_rightParen _ _ rest).trans ?_)
    have hparen : '('.utf8Size = 1 ∧ ')'.utf8Size = 1 := ⟨rfl, rfl⟩
    simp only [List.reverse_cons, List.reverse_append, List.append_assoc, List.cons_append,
      List.nil_append, List.reverse_nil]
    congr 1
    simp only [byteCount_append, byteCount_cons, byteCount_nil, hparen]
    omega

/-- What a whole source writes is what its scan gives. -/
theorem scan_eq {source : String} (h : Writes source.toList ts) :
    ∃ placed, placed.map Placed.token = ts ∧ Token.scan source = .ok placed := by
  obtain ⟨placed, hplaced, hscan⟩ := h.scan [] 0 [] (by rintro c ⟨⟩)
  rw [List.append_nil, scanFrom] at hscan
  refine ⟨placed, hplaced, ?_⟩
  rw [Token.scan, hscan]
  simp

end Writes

/-! ### The texts of values -/

theorem writes_integer (n : Int64) :
    Writes (Digits.numeral n.toInt) [.literal (.integer n)] := by
  have hmem : Digits.numeral n.toInt ∈ Pattern.integer.language :=
    numeral_mem_mul (.inl rfl) (.inr ⟨'-', rfl, rfl⟩) n.toInt
  refine Writes.of_reads (p := .integer) ⟨hmem, by simp⟩ ?_
  rw [Pattern.token?, integer?, Digits.signedValue_numeral, Digits.fit?_toInt]
  rfl

theorem writes_real (negative : Bool) (m : Magnitude) :
    Writes (Binary64.finite negative m).text [.literal (.real (.finite negative m))] := by
  refine Writes.of_reads (p := .real) ⟨Binary64.text_mem_language negative m, by simp⟩ ?_
  rw [Pattern.token?, Binary64.real?_text]
  rfl

theorem writes_text (s : String) :
    Writes (Quoted.encode s.toList) [.literal (.text s)] := by
  have hspelled := Quoted.spelling_written s.toList
  rw [← Quoted.quotation_written]
  refine Writes.of_reads (p := .text) ⟨quotation_mem_language hspelled, by simp⟩ ?_
  rw [token?_quotation hspelled, String.ofList_toList]

theorem writes_boolean (b : Bool) :
    Writes (Value.boolean b).render.toList [.literal (.boolean b)] := by
  refine Writes.of_reads (p := .boolean b) ⟨?_, by simp⟩ rfl
  cases b <;> rfl

theorem writes_relation (r : Relation) : Writes r.render.toList [.relation r] :=
  Writes.of_reads (p := .relation r) ⟨rfl, by simp⟩ rfl

theorem writes_connective (k : Connective) : Writes k.render.toList [.connective k] :=
  Writes.of_reads (p := .connective k) ⟨rfl, by simp⟩ rfl

end FilterLang.Token
