import FilterLang.Proofs.Token.Lexeme

/-! Scanning is maximal munch. The reading of a text is given by rules that know the patterns only:
blank text is passed as far as it goes, then the longest front that is of some pattern gives a
token, and where there is none the text is malformed as far as some pattern could go on. Every text
has a reading and scanning finds it, so it has no other. The blank text and the texts of the tokens
tile the source. -/

namespace FilterLang.Token

/-- The number of bytes of a text. -/
def byteCount : List Char → Nat
  | [] => 0
  | c :: cs => c.utf8Size + byteCount cs

/-- The reading of a text from an offset on. -/
inductive MaximalMunch : Nat → List Char → Except ParseError (List Placed) → Prop
  /-- Only blank text is left. -/
  | done {offset : Nat} {gap : List Char} : IsBlank gap → MaximalMunch offset gap (.ok [])
  /-- The longest match is a token. -/
  | token {offset : Nat} {gap lexeme rest : List Char} {p : Pattern} {t : Token}
      {r : Except ParseError (List Placed)} :
      IsBlank gap → BeginsLexeme (lexeme ++ rest) →
      LongestFront IsLexeme lexeme (lexeme ++ rest) → p.Reads lexeme → p.token? lexeme = some t →
      MaximalMunch (offset + byteCount gap + byteCount lexeme) rest r →
      MaximalMunch offset (gap ++ (lexeme ++ rest))
        (r.map (⟨t, offset + byteCount gap⟩ :: ·))
  /-- The longest match has no value. -/
  | malformed {offset : Nat} {gap lexeme rest : List Char} {p : Pattern} :
      IsBlank gap → BeginsLexeme (lexeme ++ rest) →
      LongestFront IsLexeme lexeme (lexeme ++ rest) → p.Reads lexeme → p.token? lexeme = none →
      MaximalMunch offset (gap ++ (lexeme ++ rest))
        (.error (.invalidToken (String.ofList lexeme) (offset + byteCount gap)))
  /-- Nothing matches. -/
  | stuck {offset : Nat} {gap cs reached : List Char} :
      IsBlank gap → BeginsLexeme cs → cs ≠ [] → (∀ v, v <+: cs → ¬IsLexeme v) →
      LongestFront IsViable reached cs →
      MaximalMunch offset (gap ++ cs)
        (.error (.invalidToken (String.ofList (cs.take (max 1 reached.length)))
          (offset + byteCount gap)))

/-- The tokens lie in the text from an offset on, each over a text of its pattern, with only blank
text before, between and behind them. -/
inductive Tiles : Nat → List Char → List Placed → Prop
  | nil {offset : Nat} {gap : List Char} : IsBlank gap → Tiles offset gap []
  | cons {offset : Nat} {gap lexeme rest : List Char} {p : Pattern} {t : Token}
      {ts : List Placed} :
      IsBlank gap → p.Reads lexeme → p.token? lexeme = some t →
      Tiles (offset + byteCount gap + byteCount lexeme) rest ts →
      Tiles offset (gap ++ (lexeme ++ rest)) (⟨t, offset + byteCount gap⟩ :: ts)

section Offsets

variable {offset : Nat} {c : Char} {cs : List Char} {ts : List Placed}

@[simp] theorem byteCount_nil : byteCount [] = 0 := rfl

@[simp] theorem byteCount_cons : byteCount (c :: cs) = c.utf8Size + byteCount cs := rfl

theorem byteCount_append (cs ds : List Char) :
    byteCount (cs ++ ds) = byteCount cs + byteCount ds := by
  induction cs with
  | nil => simp
  | cons c cs ih => rw [List.cons_append, byteCount_cons, byteCount_cons, ih, Nat.add_assoc]

theorem byteCount_pos (h : cs ≠ []) : 0 < byteCount cs := by
  cases cs with
  | nil => exact absurd rfl h
  | cons c cs =>
    have := c.utf8Size_pos
    rw [byteCount_cons]
    omega

theorem byteCount_toList (s : String) : byteCount s.toList = s.utf8ByteSize := by
  have hsize : ∀ cs : List Char, cs.utf8Encode.size = byteCount cs := by
    intro cs
    induction cs with
    | nil => rfl
    | cons c cs ih =>
      rw [List.utf8Encode_cons, ByteArray.size_append, ih, List.utf8Encode_singleton,
        List.size_toByteArray, String.length_utf8EncodeChar, byteCount_cons]
  rw [← hsize, ← String.size_toByteArray, ← String.toByteArray_ofList, String.ofList_toList]

theorem Tiles.offset_le (h : Tiles offset cs ts) : ∀ t ∈ ts, offset ≤ t.offset := by
  induction h with
  | nil _ => simp
  | cons _ _ _ _ ih =>
    intro t ht
    rcases List.mem_cons.mp ht with rfl | ht
    · exact Nat.le_add_right _ _
    · have := ih t ht
      omega

theorem Tiles.pairwise_offset (h : Tiles offset cs ts) :
    (ts.map Placed.offset).Pairwise (· < ·) := by
  induction h with
  | nil _ => exact .nil
  | @cons offset gap lexeme _ p _ _ _ hp _ hrest ih =>
    refine List.pairwise_cons.mpr ⟨fun n hn => ?_, ih⟩
    obtain ⟨t, ht, rfl⟩ := List.mem_map.mp hn
    have hle := hrest.offset_le t ht
    have hpos : 0 < byteCount lexeme := byteCount_pos (IsLexeme.ne_nil ⟨p, hp.1⟩)
    show offset + byteCount gap < t.offset
    omega

theorem MaximalMunch.tiles {r : Except ParseError (List Placed)} (h : MaximalMunch offset cs r) :
    ∀ ts, r = .ok ts → Tiles offset cs ts := by
  induction h with
  | done hgap =>
    rintro ts hts
    obtain rfl := Except.ok.inj hts
    exact .nil hgap
  | @token _ _ _ _ _ _ r hgap _ _ hp ht _ ih =>
    intro ts hts
    cases r with
    | error e => cases hts
    | ok us =>
      obtain rfl := Except.ok.inj hts
      exact .cons hgap hp ht (ih us rfl)
  | malformed => rintro ts ⟨⟩
  | stuck => rintro ts ⟨⟩

end Offsets

/-! ### Scanning on -/

section Scanning

variable {found : List Placed} {offset : Nat} {gap lexeme rest cs : List Char} {k : Kind}
  {p : Pattern}

theorem scanFrom_pass (found : List Placed) (offset : Nat) (w cs : List Char) :
    scanFrom found offset w.length (w ++ cs) = scanFrom found (offset + byteCount w) 0 cs := by
  induction w generalizing offset with
  | nil => rfl
  | cons c w ih =>
    rw [List.length_cons, List.cons_append, scanFrom, ih, byteCount_cons, Nat.add_assoc]

theorem scanFrom_match (hne : lexeme ≠ [])
    (h : (munch (lexeme ++ rest)).best = some (k, lexeme.length)) :
    scanFrom found offset 0 (lexeme ++ rest) =
      match k.token? lexeme with
      | none => .error (.invalidToken (String.ofList lexeme) offset)
      | some t => scanFrom (if t = .blank then found else ⟨t, offset⟩ :: found)
          (offset + byteCount lexeme) 0 rest := by
  obtain ⟨c, w, rfl⟩ := List.exists_cons_of_ne_nil hne
  rw [List.cons_append] at h ⊢
  rw [scanFrom]
  simp only [h]
  rw [← List.cons_append, List.take_left]
  cases k.token? (c :: w) with
  | none => rfl
  | some t =>
    simp only [List.length_cons, Nat.add_sub_cancel]
    rw [scanFrom_pass, byteCount_cons, Nat.add_assoc]

theorem scanFrom_gap (hgap : IsBlank gap) (hrest : BeginsLexeme rest) :
    scanFrom found offset 0 (gap ++ rest) = scanFrom found (offset + byteCount gap) 0 rest := by
  by_cases hne : gap = []
  · rw [hne]
    rfl
  · rw [scanFrom_match hne (munch_best_of_isBlank hne hgap hrest)]
    rfl

/-- Blank text is passed, whatever follows it. -/
theorem scanFrom_blank (hgap : IsBlank gap) (cs : List Char) :
    scanFrom found offset 0 (gap ++ cs) = scanFrom found (offset + byteCount gap) 0 cs := by
  obtain ⟨more, rest, rfl, hmore, hrest⟩ := exists_gap cs
  have hall : IsBlank (gap ++ more) := fun c hc => (List.mem_append.mp hc).elim (hgap c) (hmore c)
  rw [← List.append_assoc, scanFrom_gap hall hrest, scanFrom_gap hmore hrest, byteCount_append,
    Nat.add_assoc]

theorem scanFrom_stuck (hcs : BeginsLexeme cs) (hne : cs ≠ [])
    (hnone : ∀ v, v <+: cs → ¬IsLexeme v) (hlong : LongestFront IsViable lexeme cs) :
    scanFrom found offset 0 cs =
      .error (.invalidToken (String.ofList (cs.take (max 1 lexeme.length))) offset) := by
  have hbest := munch_best_eq_none hcs hnone
  have hreach := munch_reach_of_isViable hcs hlong
  obtain ⟨c, w, rfl⟩ := List.exists_cons_of_ne_nil hne
  rw [scanFrom]
  simp only [hbest, hreach]

theorem Pattern.token?_ne_blank : p.token? cs ≠ some .blank := by
  cases p <;> simp [Pattern.token?]

theorem Pattern.Reads.begins (hp : p.Reads lexeme) (rest : List Char) :
    BeginsLexeme (lexeme ++ rest) := by
  have hkind : kindOf? lexeme = some p.kind := Pattern.kindOf?_eq_kind hp.1
  obtain ⟨c, w, rfl⟩ := List.exists_cons_of_ne_nil (IsLexeme.ne_nil ⟨p, hp.1⟩)
  intro d hd hspace
  obtain rfl : c = d := by simpa using hd
  exact p.kind_ne_blank (isBlank_of_kindOf?_cons hspace hkind)

/-- The longest match in front of a text is taken for its token. -/
theorem scanFrom_token {t : Token} (hp : p.Reads lexeme) (ht : p.token? lexeme = some t)
    (hlong : LongestFront IsLexeme lexeme (lexeme ++ rest)) :
    scanFrom found offset 0 (lexeme ++ rest) =
      scanFrom (⟨t, offset⟩ :: found) (offset + byteCount lexeme) 0 rest := by
  have hne : t ≠ .blank := by
    rintro rfl
    exact Pattern.token?_ne_blank ht
  have hbest := munch_best_of_reads (hp.begins rest) hlong hp
  rw [scanFrom_match hlong.holds.ne_nil hbest, ← hp.token?_eq, ht]
  simp only [hne, ↓reduceIte]

theorem scanFrom_of_maximalMunch {r : Except ParseError (List Placed)}
    (h : MaximalMunch offset cs r) :
    ∀ found, scanFrom found offset 0 cs = r.map (found.reverse ++ ·) := by
  induction h with
  | @done offset gap hgap =>
    intro found
    rw [← List.append_nil gap, scanFrom_gap hgap (by rintro c ⟨⟩), scanFrom]
    simp [Except.map]
  | @token offset gap lexeme rest p t r hgap hbegins hlong hp ht _ ih =>
    intro found
    rw [scanFrom_gap hgap hbegins, scanFrom_token hp ht hlong, ih]
    cases r <;> simp [Except.map]
  | malformed hgap hbegins hlong hp ht =>
    intro found
    rw [scanFrom_gap hgap hbegins, scanFrom_match hlong.holds.ne_nil
      (munch_best_of_reads hbegins hlong hp), ← hp.token?_eq, ht]
    rfl
  | stuck hgap hbegins hne hnone hlong =>
    intro found
    rw [scanFrom_gap hgap hbegins, scanFrom_stuck hbegins hne hnone hlong]
    rfl

/-- Every text has a reading. -/
theorem exists_maximalMunch (offset : Nat) (cs : List Char) : ∃ r, MaximalMunch offset cs r := by
  induction hn : cs.length using Nat.strong_induction_on generalizing offset cs with
  | _ n ih =>
    obtain ⟨gap, body, rfl, hgap, hbody⟩ := exists_gap cs
    by_cases hne : body = []
    · rw [hne, List.append_nil]
      exact ⟨_, .done hgap⟩
    rcases munch_best body with ⟨lexeme, k, hw, hk, -⟩ | ⟨hnone, -⟩
    · have hlong := (longestFront_isLexeme_iff hbody).mp hw
      obtain ⟨k', hk', hblank⟩ := isLexeme_iff.mp hlong.holds
      obtain rfl : k' = k := Option.some.inj (hk'.symm.trans hk)
      obtain ⟨p, hp, -⟩ := exists_reads_of_kindOf? hk hblank
      obtain ⟨rest, rfl⟩ := hlong.front
      cases ht : p.token? lexeme with
      | none => exact ⟨_, .malformed hgap hbody hlong hp ht⟩
      | some t =>
        have hpos := List.length_pos_of_ne_nil hlong.holds.ne_nil
        obtain ⟨r, hr⟩ := ih rest.length (by simp at hn; omega)
          (offset + byteCount gap + byteCount lexeme) rest rfl
        exact ⟨_, .token hgap hbody hlong hp ht hr⟩
    · obtain ⟨reached, hreached, -⟩ := munch_reach body
      refine ⟨_, .stuck hgap hbody hne (fun v hv hlex => ?_)
        ((longestFront_isViable_iff hbody).mp hreached)⟩
      obtain ⟨k, hk, -⟩ := isLexeme_iff.mp hlex
      rw [hnone v hv] at hk
      cases hk

theorem scanFrom_zero_eq_iff {r : Except ParseError (List Placed)} :
    scanFrom [] offset 0 cs = r ↔ MaximalMunch offset cs r := by
  have hscan : ∀ {r}, MaximalMunch offset cs r → scanFrom [] offset 0 cs = r := by
    intro r h
    rw [scanFrom_of_maximalMunch h]
    cases r <;> rfl
  refine ⟨fun h => ?_, hscan⟩
  obtain ⟨r', hr'⟩ := exists_maximalMunch offset cs
  rwa [← h, hscan hr']

end Scanning

theorem tiles_of_scan {source : String} {ts : List Placed} (h : scan source = .ok ts) :
    Tiles 0 source.toList ts :=
  (scanFrom_zero_eq_iff.mp h).tiles ts rfl

/-- Scanning gives the maximal-munch reading of the source, and nothing else. Where it gives
tokens, their texts and the blank text tile the source, at strictly increasing offsets. -/
theorem scan_eq_maximalMunch (source : String) :
    (∀ r, scan source = r ↔ MaximalMunch 0 source.toList r) ∧
    ∀ ts, scan source = .ok ts →
      Tiles 0 source.toList ts ∧ (ts.map Placed.offset).Pairwise (· < ·) := by
  refine ⟨fun r => scanFrom_zero_eq_iff, fun ts h => ?_⟩
  have htiles := tiles_of_scan h
  exact ⟨htiles, htiles.pairwise_offset⟩

end FilterLang.Token
