import FilterLang.Expr.Parse
import FilterLang.Proofs.Expr.Relocation

/-! Blank text between tokens does not matter. The text of a token is read as this token wherever
the end of a lexeme follows it. So the texts of the tokens of a source can be set apart by any blank
text, also those that touch each other: they scan as the same tokens, at the offsets where they now
stand, and the parser looks at the tokens alone. -/

namespace FilterLang

open Token

/-- What is left of a text behind a number of bytes. -/
def dropBytes : Nat → List Char → List Char
  | 0, cs => cs
  | _ + 1, [] => []
  | n + 1, c :: cs => dropBytes (n + 1 - c.utf8Size) cs

/-- The longest match in a source at an offset: the text of the token that stands there. -/
def textAt (source : String) (offset : Nat) : List Char :=
  let cs := dropBytes offset source.toList
  match (munch cs).best with
  | some (_, n) => cs.take n
  | none => []

/-- A token with its text and the text behind it. -/
structure Word where
  token : Token
  text : List Char
  gap : List Char

/-- The text that words make one after the other. -/
def spread (words : List Word) : List Char := words.flatMap fun w => w.text ++ w.gap

/-- The tokens of words at the places that they have from an offset on. -/
def place (offset : Nat) : List Word → List Placed
  | [] => []
  | w :: ws => ⟨w.token, offset⟩ :: place (offset + byteCount w.text + byteCount w.gap) ws

/-- The tokens of a source with their texts, each with another text behind it. -/
def respace (source : String) (ts : List Placed) (gaps : List (List Char)) : List Word :=
  ts.zipWith (fun t gap => ⟨t.token, textAt source t.offset, gap⟩) gaps

/-! ### The texts of tokens -/

theorem dropBytes_append (cs ds : List Char) : dropBytes (byteCount cs) (cs ++ ds) = ds := by
  induction cs with
  | nil => rw [byteCount_nil, dropBytes, List.nil_append]
  | cons c cs ih =>
    obtain ⟨n, hn⟩ := Nat.exists_eq_succ_of_ne_zero c.utf8Size_pos.ne'
    rw [List.cons_append, byteCount_cons, hn, Nat.succ_add, dropBytes, hn]
    rw [show n + byteCount cs + 1 - n.succ = byteCount cs by omega, ih]

theorem textAt_eq {source : String} {before lexeme rest : List Char} {p : Pattern}
    (hsource : source.toList = before ++ (lexeme ++ rest)) (hp : p.Reads lexeme)
    (hlong : LongestFront IsLexeme lexeme (lexeme ++ rest)) :
    textAt source (byteCount before) = lexeme := by
  rw [textAt, hsource, dropBytes_append]
  simp only [munch_best_of_reads (hp.begins rest) hlong hp]
  exact List.take_left

/-- Some pattern reads the text as the token. -/
def ReadsAs (text : List Char) (t : Token) : Prop :=
  ∃ p : Pattern, p.Reads text ∧ p.token? text = some t

/-- The texts of the tokens are read as these tokens. With blank text before, between and behind
them they are the text that was scanned. -/
theorem Token.MaximalMunch.exists_respace {source : String} {offset : Nat} {cs : List Char}
    {r : Except ParseError (List Placed)} (h : MaximalMunch offset cs r) :
    ∀ before, source.toList = before ++ cs → byteCount before = offset → ∀ ts, r = .ok ts →
      (∀ t ∈ ts, ReadsAs (textAt source t.offset) t.token) ∧
      ∃ gap gaps, gaps.length = ts.length ∧ IsBlank gap ∧ (∀ g ∈ gaps, IsBlank g) ∧
        cs = gap ++ spread (respace source ts gaps) := by
  induction h with
  | @done offset gap hgap =>
    intro before _ _ ts hts
    obtain rfl := Except.ok.inj hts
    exact ⟨by simp, gap, [], rfl, hgap, by simp, by simp [respace, spread]⟩
  | @token offset gap lexeme rest p u r hgap _ hlong hp hu _ ih =>
    intro before hsource hbefore ts hts
    cases r with
    | error e => cases hts
    | ok us =>
      obtain rfl := Except.ok.inj hts
      have hstart : byteCount (before ++ gap) = offset + byteCount gap := by
        rw [byteCount_append, hbefore]
      have htext : textAt source (offset + byteCount gap) = lexeme := by
        rw [← hstart]
        exact textAt_eq (by simp [hsource]) hp hlong
      have hrest : byteCount (before ++ gap ++ lexeme) =
          offset + byteCount gap + byteCount lexeme := by rw [byteCount_append, hstart]
      obtain ⟨hreads, gap', gaps, hlength, hgap', hgaps, hcs⟩ :=
        ih (before ++ gap ++ lexeme) (by simp [hsource]) hrest us rfl
      constructor
      · intro t ht
        rcases List.mem_cons.mp ht with rfl | ht
        · exact ⟨p, by rwa [htext], by rwa [htext]⟩
        · exact hreads t ht
      · have hblank : ∀ g ∈ gap' :: gaps, IsBlank g := List.forall_mem_cons.mpr ⟨hgap', hgaps⟩
        refine ⟨gap, gap' :: gaps, by simp [hlength], hgap, hblank, ?_⟩
        have hspread : spread (respace source (⟨u, offset + byteCount gap⟩ :: us)
            (gap' :: gaps)) = lexeme ++ gap' ++ spread (respace source us gaps) := by
          rw [← htext]
          rfl
        rw [hspread, List.append_assoc, ← hcs]
  | malformed => rintro _ _ _ ts ⟨⟩
  | stuck => rintro _ _ _ ts ⟨⟩

/-! ### Words -/

section Words

variable {source : String} {ts : List Placed} {gaps : List (List Char)} {words : List Word}

theorem map_token_place (offset : Nat) (words : List Word) :
    (place offset words).map Placed.token = words.map Word.token := by
  induction words generalizing offset with
  | nil => rfl
  | cons w ws ih => rw [place, List.map_cons, ih, List.map_cons]

theorem map_token_respace (h : gaps.length = ts.length) :
    (respace source ts gaps).map Word.token = ts.map Placed.token := by
  rw [respace, List.map_zipWith]
  induction ts generalizing gaps with
  | nil => rfl
  | cons t ts ih =>
    obtain ⟨gap, gaps, rfl⟩ := List.exists_cons_of_length_eq_add_one h
    rw [List.zipWith_cons_cons, List.map_cons, ih (by simpa using h)]

theorem map_gap_respace (h : gaps.length = ts.length) :
    (respace source ts gaps).map Word.gap = gaps := by
  rw [respace, List.map_zipWith]
  induction ts generalizing gaps with
  | nil => exact (List.eq_nil_of_length_eq_zero h).symm
  | cons t ts ih =>
    obtain ⟨gap, gaps, rfl⟩ := List.exists_cons_of_length_eq_add_one h
    rw [List.zipWith_cons_cons, ih (by simpa using h)]

theorem readsAs_of_mem_respace (hts : ∀ t ∈ ts, ReadsAs (textAt source t.offset) t.token) :
    ∀ w ∈ respace source ts gaps, ReadsAs w.text w.token := by
  intro w hw
  rw [respace] at hw
  obtain ⟨i, hi, rfl⟩ := List.mem_iff_getElem.mp hw
  rw [List.getElem_zipWith]
  exact hts _ (List.getElem_mem _)

/-- Words with blank text behind them scan as their tokens; only behind the last word this may be
missing. -/
theorem scanFrom_spread (hwords : ∀ w ∈ words, ReadsAs w.text w.token)
    (hblank : ∀ gap ∈ words.map Word.gap, IsBlank gap)
    (hapart : ∀ gap ∈ (words.map Word.gap).dropLast, gap ≠ []) (found : List Placed)
    (offset : Nat) :
    scanFrom found offset 0 (spread words) = .ok (found.reverse ++ place offset words) := by
  induction words generalizing found offset with
  | nil => simp [spread, place, scanFrom]
  | cons w ws ih =>
    obtain ⟨p, hp, ht⟩ := hwords w List.mem_cons_self
    have hgap := hblank w.gap (by simp)
    have hends : EndsLexeme (w.gap ++ spread ws) := by
      by_cases hne : w.gap = []
      · cases ws with
        | nil =>
          rw [hne]
          exact endsLexeme_nil
        | cons v vs => exact absurd hne (hapart w.gap (by simp))
      · exact hgap.endsLexeme hne _
    have hrest := ih (fun v hv => hwords v (List.mem_cons_of_mem w hv))
      (fun gap h => hblank gap (List.mem_cons_of_mem _ h))
      (fun gap h => hapart gap (by
        rw [List.map_cons, List.dropLast_cons_of_ne_nil (by rintro h'; simp [h'] at h)]
        exact List.mem_cons_of_mem _ h))
    rw [spread, List.flatMap_cons, ← spread, List.append_assoc, scanFrom_reads hp ht hends,
      scanFrom_blank hgap, hrest, place, List.reverse_cons, List.append_assoc]
    rfl

/-- A source is made of the texts of its tokens and blank text. Set apart by any blank text, they
scan as the same tokens at their new places, and they are parsed as the source is, but for the
places of errors. -/
theorem parse_respaced (hscan : scan source = .ok ts) :
    (∃ gap gaps, gaps.length = ts.length ∧ IsBlank gap ∧ (∀ g ∈ gaps, IsBlank g) ∧
      source.toList = gap ++ spread (respace source ts gaps)) ∧
    ∀ (gap : List Char) (gaps : List (List Char)), gaps.length = ts.length → IsBlank gap →
      (∀ g ∈ gaps, IsBlank g) → (∀ g ∈ gaps.dropLast, g ≠ []) →
      let words := respace source ts gaps
      let respaced := String.ofList (gap ++ spread words)
      scan respaced = .ok (place (byteCount gap) words) ∧
      (place (byteCount gap) words).map Placed.token = ts.map Placed.token ∧
      (parse respaced).mapError ParseError.unplaced =
        (parse source).mapError ParseError.unplaced := by
  obtain ⟨hreads, hsource⟩ :=
    (scanFrom_zero_eq_iff.mp hscan).exists_respace [] rfl rfl ts rfl
  refine ⟨hsource, fun gap gaps hlength hgap hblank hapart => ?_⟩
  intro words respaced
  have hgaps : words.map Word.gap = gaps := map_gap_respace hlength
  have hrespaced : scan respaced = .ok (place (byteCount gap) words) := by
    rw [scan, String.toList_ofList, scanFrom_blank hgap, Nat.zero_add,
      scanFrom_spread (readsAs_of_mem_respace hreads) (by rwa [hgaps]) (by rwa [hgaps])]
    rfl
  have htokens : (place (byteCount gap) words).map Placed.token = ts.map Placed.token := by
    rw [map_token_place, map_token_respace hlength]
  refine ⟨hrespaced, htokens, ?_⟩
  rw [parse, parse, hrespaced, hscan]
  exact Reading.source_unplaced htokens

/-- Tokens that touch each other are set apart; blank text between quotes stays. -/
theorem parse_respaced_glued :
    let source := "x>=-1and\"a  b\"=s"
    let respaced := " x\t>= -1\r\nand  \"a  b\" =\x0cs"
    ∃ ts, scan source = .ok ts ∧
      scan respaced = .ok (place 1 (respace source ts
        [['\t'], [' '], ['\r', '\n'], [' ', ' '], [' '], ['\x0c'], []])) ∧
      (parse respaced).mapError ParseError.unplaced =
        (parse source).mapError ParseError.unplaced := by
  intro source respaced
  let ts : List Placed := [⟨.name "x", 0⟩, ⟨.relation .greaterOrEqual, 1⟩,
    ⟨.literal (.integer (-1)), 3⟩, ⟨.connective .and, 5⟩, ⟨.literal (.text "a  b"), 8⟩,
    ⟨.relation .equal, 14⟩, ⟨.name "s", 15⟩]
  let gaps : List (List Char) := [['\t'], [' '], ['\r', '\n'], [' ', ' '], [' '], ['\x0c'], []]
  have hscan : scan source = .ok ts := by decide +kernel
  have hlength : gaps.length = ts.length := rfl
  have hgap : IsBlank [' '] := by simp [IsBlank, isSpace]
  have hblank : ∀ g ∈ gaps, IsBlank g := by simp [gaps, IsBlank, isSpace]
  have hapart : ∀ g ∈ gaps.dropLast, g ≠ [] := by simp [gaps]
  have h := (parse_respaced hscan).2 [' '] gaps hlength hgap hblank hapart
  have htext : String.ofList ([' '] ++ spread (respace source ts gaps)) = respaced := by
    decide +kernel
  simp only [htext] at h
  exact ⟨ts, hscan, h.1, h.2.2⟩

end Words

end FilterLang
