import FilterLang.Proofs.Text.Quoted
import FilterLang.Proofs.Token.Locality

/-! How a quotation scans. A character may be spelled in several ways between quotes, and each
spelling is made of whole items of the pattern for quotations, whatever the next one begins with. So
any sequence of spellings makes a quotation, which is read as the characters that they spell. A
quotation ends with its closing quote: no token goes on behind it, so what follows is scanned as if
it stood alone. -/

namespace FilterLang.Token

open Computability
open Text Text.Quoted

variable {l : Language Char} {c : Char} {n : Nat} {w piece digits rest text : List Char}
  {pieces : List (List Char)}

/-! ### Spellings are made of whole items -/

theorem plain_append_mem {cs : List Char} (hplain : ∀ c ∈ cs, c ≠ '"' ∧ c ≠ '\\')
    (h : rest ∈ quotedItem∗ * l) : cs ++ rest ∈ quotedItem∗ * l := by
  induction cs with
  | nil => exact h
  | cons c cs ih =>
    have hrest := ih fun d hd => hplain d (List.mem_cons_of_mem c hd)
    exact cons_mem_quotedItem_star_mul.mpr (.inr (.inl ⟨hplain c List.mem_cons_self, hrest⟩))

theorem escape_append_mem (hc : c ≠ '\n') (h : rest ∈ quotedItem∗ * l) :
    '\\' :: c :: rest ∈ quotedItem∗ * l :=
  cons_mem_quotedItem_star_mul.mpr
    (.inr (.inr ⟨rfl, cons_mem_oneOf_mul.mpr ⟨bne_iff_ne.mpr hc, h⟩⟩))

theorem digits_append_mem (hdigits : Hex.Denotes digits n) (h : rest ∈ quotedItem∗ * l) :
    digits ++ rest ∈ quotedItem∗ * l := by
  refine plain_append_mem (fun d hd => ?_) h
  have hdigit := hdigits.isDigit hd
  constructor <;> (rintro rfl; cases hdigit)

theorem spelling_append_mem (h : Spelling piece c) (hrest : rest ∈ quotedItem∗ * l) :
    piece ++ rest ∈ quotedItem∗ * l := by
  obtain ⟨hpiece, hquote⟩ := h
  cases hpiece with
  | itself hslash =>
    have hplain : c ≠ '"' := fun hc => hquote (congrArg (fun d => [d]) hc)
    exact plain_append_mem (by simpa using ⟨hplain, hslash⟩) hrest
  | named hletter =>
    have hletters : ∀ e ∈ namedEscapes, e.1 ≠ '\n' := by decide
    exact escape_append_mem (hletters _ hletter) hrest
  | ascii _ hdigits _ => exact escape_append_mem (by decide) (digits_append_mem hdigits hrest)
  | four _ hdigits => exact escape_append_mem (by decide) (digits_append_mem hdigits hrest)
  | @braced digits _ hdigits =>
    have hclose : ['\x7d'] ++ rest ∈ quotedItem∗ * l := plain_append_mem (by simp) hrest
    have hopen : ['\x7b'] ++ (digits ++ (['\x7d'] ++ rest)) ∈ quotedItem∗ * l :=
      plain_append_mem (by simp) (digits_append_mem hdigits hclose)
    simpa using escape_append_mem (c := 'u') (by decide) hopen

theorem flatten_append_mem (h : List.Forall₂ Spelling pieces text) (hrest : rest ∈ l) :
    pieces.flatten ++ rest ∈ quotedItem∗ * l := by
  induction h with
  | nil => exact Language.append_mem_mul (Language.nil_mem_kstar _) hrest
  | cons hpiece _ ih =>
    rw [List.flatten_cons, List.append_assoc]
    exact spelling_append_mem hpiece ih

theorem quotation_mem_language (h : List.Forall₂ Spelling pieces text) :
    quotation pieces ∈ Pattern.text.language :=
  cons_mem_single_mul.mpr ⟨rfl, flatten_append_mem h (cons_mem_single.mpr ⟨rfl, rfl⟩)⟩

theorem token?_quotation (h : List.Forall₂ Spelling pieces text) :
    Pattern.text.token? (quotation pieces) = some (.literal (.text (String.ofList text))) := by
  rw [Pattern.token?, quotation, List.drop_one, List.tail_cons, List.dropLast_concat,
    (spells_flatten h).decode_eq]
  rfl

/-! ### Quotations in front of others -/

/-- A quotation is the longest match in front of whatever follows. -/
theorem longestFront_of_text (h : w ∈ Pattern.text.language) (rest : List Char) :
    LongestFront IsLexeme w (w ++ rest) := by
  obtain ⟨q, hread, hkind⟩ := Option.bind_eq_some_iff.mp (Pattern.kindOf?_eq_kind h)
  have hclosed : q = .closed := by
    cases q with
    | closed => rfl
    | _ => cases hkind
  subst hclosed
  exact longestFront_of_stops ⟨.text, h⟩ hread fun _ _ => rfl

theorem scanFrom_quotation (h : List.Forall₂ Spelling pieces text) (found : List Placed)
    (offset : Nat) (rest : List Char) :
    scanFrom found offset 0 (quotation pieces ++ rest) =
      scanFrom (⟨.literal (.text (String.ofList text)), offset⟩ :: found)
        (offset + byteCount (quotation pieces)) 0 rest := by
  have hmem := quotation_mem_language h
  exact scanFrom_token (p := .text) ⟨hmem, by simp⟩ (token?_quotation h)
    (longestFront_of_text hmem rest)

theorem scan_quotation_append (h : List.Forall₂ Spelling pieces text) {b : String}
    {ts : List Placed} (hb : scan b = .ok ts) :
    scan (String.ofList (quotation pieces) ++ b) =
      .ok (⟨.literal (.text (String.ofList text)), 0⟩ ::
        ts.map (Placed.relocate ((String.ofList (quotation pieces)).utf8ByteSize + ·))) := by
  have hrest := Token.scanFrom_append hb endsLexeme_nil
    [⟨.literal (.text (String.ofList text)), 0⟩] (byteCount (quotation pieces))
  rw [List.append_nil] at hrest
  rw [scan, String.toList_append, String.toList_ofList, scanFrom_quotation h, Nat.zero_add, hrest,
    scanFrom, ← byteCount_toList, String.toList_ofList]
  simp

/-- Every spelling of a text between quotes scans as that text, and what follows as it does alone. -/
theorem scan_quotation (h : List.Forall₂ Spelling pieces text) :
    scan (String.ofList (quotation pieces)) =
      .ok [⟨.literal (.text (String.ofList text)), 0⟩] ∧
    ∀ b ts, scan b = .ok ts →
      scan (String.ofList (quotation pieces) ++ b) =
        .ok (⟨.literal (.text (String.ofList text)), 0⟩ ::
          ts.map (Placed.relocate ((String.ofList (quotation pieces)).utf8ByteSize + ·))) := by
  refine ⟨?_, fun b ts hb => scan_quotation_append h hb⟩
  have halone := scan_quotation_append h (show scan "" = .ok [] from rfl)
  rwa [String.append_empty] at halone

/-- Pieces that begin with what could belong to the piece before: a digit after the digits of a
code, a brace after a brace, and a backslash before the closing quote. -/
def crowdedPieces : List (List Char) :=
  [['\\', 'x', '4', 'A'], ['1'], ['\\', 'u', '\x7b', '0', '0', 'e', '9', '\x7d'], ['\x7d'],
    ['\\', 'u', '0', '0', 'E', '9'], ['9'], ['é'], ['\\', '"'], ['\\', '\\']]

theorem spelling_crowdedPieces :
    List.Forall₂ Spelling crowdedPieces ['J', '1', 'é', '\x7d', 'é', '9', 'é', '"', '\\'] := by
  have hascii : Hex.Denotes ['4', 'A'] 'J'.toNat := Hex.value?_eq_some_iff.mp rfl
  have hbraced : Hex.Denotes ['0', '0', 'e', '9'] 'é'.toNat := Hex.value?_eq_some_iff.mp rfl
  have hfour : Hex.Denotes ['0', '0', 'E', '9'] 'é'.toNat := Hex.value?_eq_some_iff.mp rfl
  refine .cons ⟨.ascii rfl hascii (by decide), by decide⟩ ?_
  refine .cons (spelling_self (by decide) (by decide)) ?_
  refine .cons ⟨.braced hbraced, by decide⟩ ?_
  refine .cons (spelling_self (by decide) (by decide)) ?_
  refine .cons ⟨.four rfl hfour, by decide⟩ ?_
  refine .cons (spelling_self (by decide) (by decide)) ?_
  refine .cons (spelling_self (by decide) (by decide)) ?_
  refine .cons ⟨.named (by decide), by decide⟩ ?_
  exact .cons ⟨.named (by decide), by decide⟩ .nil

theorem scan_quotation_crowded :
    List.Forall₂ Spelling crowdedPieces ['J', '1', 'é', '\x7d', 'é', '9', 'é', '"', '\\'] ∧
    scan (String.ofList (quotation crowdedPieces)) =
      .ok [⟨.literal (.text "J1é\x7dé9é\"\\"), 0⟩] ∧
    scan "and x" = .ok [⟨.connective .and, 0⟩, ⟨.name "x", 4⟩] ∧
    scan (String.ofList (quotation crowdedPieces) ++ "and x") =
      .ok [⟨.literal (.text "J1é\x7dé9é\"\\"), 0⟩, ⟨.connective .and, 29⟩, ⟨.name "x", 33⟩] := by
  have hword : scan "and x" = .ok [⟨.connective .and, 0⟩, ⟨.name "x", 4⟩] := by decide
  obtain ⟨halone, hfollowed⟩ := scan_quotation spelling_crowdedPieces
  exact ⟨spelling_crowdedPieces, halone, hword, hfollowed _ _ hword⟩

end FilterLang.Token
