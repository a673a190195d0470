import FilterLang.Proofs.Expr.Earliest
import FilterLang.Proofs.Expr.Respacing

/-! The place of an error is a place of the source. It lies between two characters, however many
bytes these take, and what the error is about stands there: a malformed fragment with its text, a
token with its text, the parenthesis of a group, or the end of the source. -/

namespace FilterLang

open Token

/-- The text stands in the source at a byte offset. -/
def StandsAt (source : String) (p : Nat) (text : String) : Prop :=
  ∃ front back, source = front ++ text ++ back ∧ front.utf8ByteSize = p

/-- The token is one of the source, at a byte offset. -/
def HasTokenAt (source : String) (p : Nat) (t : Token) : Prop :=
  ∃ ts, scan source = .ok ts ∧ ⟨t, p⟩ ∈ ts

/-- The byte offset is that of a parenthesis that opens a group. It stands there, and the texts of
all other tokens, such as those between quotes, lie in front of it or behind it. -/
structure OpensGroupAt (source : String) (p : Nat) : Prop where
  stands : StandsAt source p "("
  token : HasTokenAt source p .leftParen
  apart : ∀ ts, scan source = .ok ts → ∀ u ∈ ts, u ≠ ⟨.leftParen, p⟩ →
    u.offset + byteCount (textAt source u.offset) ≤ p ∨ p < u.offset

/-- What an error says is to be found at its place in the source. -/
def ParseError.PointsInto (source : String) : ParseError → Prop
  | .invalidToken fragment p => fragment ≠ "" ∧ StandsAt source p fragment
  | .unexpectedToken _ found p => HasTokenAt source p found
  | .trailingToken found p => HasTokenAt source p found
  | .nestingTooDeep p => OpensGroupAt source p
  | .unclosedGroup p => OpensGroupAt source p
  | .unexpectedEnd _ p => p = source.utf8ByteSize
  | .empty => True

section

variable {source text : String} {offset p : Nat} {cs front lexeme back : List Char}
  {ts : List Placed} {t : Placed}

/-! ### Places -/

theorem standsAt_of_toList (h : source.toList = front ++ (lexeme ++ back)) :
    StandsAt source (byteCount front) (String.ofList lexeme) := by
  refine ⟨String.ofList front, String.ofList back, ?_, ?_⟩
  · rw [← String.toList_inj]
    simpa using h
  · rw [← byteCount_toList, String.toList_ofList]

/-- A place where a text stands lies between two characters. -/
theorem StandsAt.empty (h : StandsAt source p text) : StandsAt source p "" := by
  obtain ⟨front, back, rfl, hp⟩ := h
  exact ⟨front, text ++ back, by simp [String.append_assoc], hp⟩

theorem StandsAt.le (h : StandsAt source p text) : p ≤ source.utf8ByteSize := by
  obtain ⟨front, back, rfl, rfl⟩ := h
  simp only [String.utf8ByteSize_append]
  omega

theorem standsAt_end (source : String) : StandsAt source source.utf8ByteSize "" :=
  ⟨source, "", by simp, rfl⟩

/-! ### Tokens in their places -/

/-- A token of a text stands where its offset says, over a text of its own. -/
theorem Token.Tiles.exists_split (h : Tiles offset cs ts) :
    ∀ t ∈ ts, ∃ front lexeme back, cs = front ++ (lexeme ++ back) ∧
      t.offset = offset + byteCount front ∧ ReadsAs lexeme t.token := by
  induction h with
  | nil _ => simp
  | @cons offset gap lexeme rest pattern t ts _ hp ht _ ih =>
    intro u hu
    rcases List.mem_cons.mp hu with rfl | hu
    · exact ⟨gap, lexeme, rest, rfl, rfl, pattern, hp, ht⟩
    · obtain ⟨front, found, back, rfl, hoffset, hreads⟩ := ih u hu
      refine ⟨gap ++ (lexeme ++ front), found, back, by simp, ?_, hreads⟩
      simp only [hoffset, byteCount_append]
      omega

theorem exists_standsAt (hscan : scan source = .ok ts) (ht : t ∈ ts) :
    ∃ lexeme, ReadsAs lexeme t.token ∧ StandsAt source t.offset (String.ofList lexeme) := by
  obtain ⟨front, lexeme, back, hsource, hoffset, hreads⟩ :=
    (tiles_of_scan hscan).exists_split t ht
  refine ⟨lexeme, hreads, ?_⟩
  rw [hoffset, Nat.zero_add]
  exact standsAt_of_toList hsource

theorem HasTokenAt.standsAt {t : Token} (h : HasTokenAt source p t) : StandsAt source p "" := by
  obtain ⟨ts, hscan, ht⟩ := h
  obtain ⟨lexeme, -, hstands⟩ := exists_standsAt hscan ht
  exact hstands.empty

/-- Nothing but a parenthesis is read as one. -/
theorem eq_of_readsAs_leftParen (h : ReadsAs cs .leftParen) : cs = ['('] := by
  obtain ⟨pattern, hp, ht⟩ := h
  cases pattern <;> simp_all [Pattern.token?, Pattern.Reads, Pattern.language]

/-- The texts of the tokens lie one behind the other. -/
theorem Token.MaximalMunch.pairwise_textAt {r : Except ParseError (List Placed)}
    (h : MaximalMunch offset cs r) :
    ∀ before, source.toList = before ++ cs → byteCount before = offset → ∀ ts, r = .ok ts →
      ts.Pairwise fun t u => t.offset + byteCount (textAt source t.offset) ≤ u.offset := by
  induction h with
  | done _ =>
    rintro _ _ _ ts hts
    obtain rfl := Except.ok.inj hts
    exact .nil
  | @token offset gap lexeme rest pattern u r _ _ hlong hp _ hrest ih =>
    intro before hsource hbefore ts hts
    cases r with
    | error e => cases hts
    | ok us =>
      obtain rfl := Except.ok.inj hts
      have hstart : byteCount (before ++ gap) = offset + byteCount gap := by
        rw [byteCount_append, hbefore]
      have htext : textAt source (offset + byteCount gap) = lexeme := by
        rw [← hstart]
        exact textAt_eq (by simp [hsource]) hp hlong
      have hnext : byteCount (before ++ gap ++ lexeme) =
          offset + byteCount gap + byteCount lexeme := by rw [byteCount_append, hstart]
      refine List.pairwise_cons.mpr ⟨fun v hv => ?_,
        ih (before ++ gap ++ lexeme) (by simp [hsource]) hnext us rfl⟩
      rw [htext]
      exact (hrest.tiles us rfl).offset_le v hv
  | malformed => rintro _ _ _ ts ⟨⟩
  | stuck => rintro _ _ _ ts ⟨⟩

theorem opensGroupAt_of_mem (hscan : scan source = .ok ts) (ht : ⟨.leftParen, p⟩ ∈ ts) :
    OpensGroupAt source p where
  stands := by
    obtain ⟨lexeme, hreads, hstands⟩ := exists_standsAt hscan ht
    rw [eq_of_readsAs_leftParen hreads] at hstands
    exact hstands
  token := ⟨ts, hscan, ht⟩
  apart us hus u hu hne := by
    obtain rfl : ts = us := Except.ok.inj (hscan.symm.trans hus)
    have hlt := List.pairwise_map.mp (tiles_of_scan hscan).pairwise_offset
    have hapart := (scanFrom_zero_eq_iff.mp hscan).pairwise_textAt [] rfl rfl ts rfl
    obtain ⟨before, behind, rfl⟩ := List.append_of_mem ht
    rcases List.mem_append.mp hu with hu | hu
    · exact .inl ((List.pairwise_append.mp hapart).2.2 u hu _ List.mem_cons_self)
    · rcases List.mem_cons.mp hu with rfl | hu
      · exact absurd rfl hne
      · exact .inr ((List.pairwise_cons.mp (List.pairwise_append.mp hlt).2.1).1 u hu)

theorem OpensGroupAt.standsAt (h : OpensGroupAt source p) : StandsAt source p "" := h.stands.empty

/-! ### Malformed fragments -/

/-- A scan that fails does so with a fragment of the text, which is not empty. -/
theorem Token.MaximalMunch.exists_fragment {r : Except ParseError (List Placed)}
    (h : MaximalMunch offset cs r) :
    ∀ e, r = .error e → ∃ front fragment back, cs = front ++ (fragment ++ back) ∧
      fragment ≠ [] ∧ e = .invalidToken (String.ofList fragment) (offset + byteCount front) := by
  induction h with
  | done _ => rintro e ⟨⟩
  | @token offset gap lexeme rest _ _ r _ _ _ _ _ _ ih =>
    intro e he
    cases r with
    | ok us => cases he
    | error e' =>
      obtain rfl : e' = e := Except.error.inj he
      obtain ⟨front, fragment, back, rfl, hne, rfl⟩ := ih e' rfl
      refine ⟨gap ++ (lexeme ++ front), fragment, back, by simp, hne, ?_⟩
      simp only [byteCount_append, Nat.add_assoc]
  | @malformed offset gap lexeme rest _ _ _ hlong =>
    intro e he
    exact ⟨gap, lexeme, rest, rfl, hlong.holds.ne_nil, (Except.error.inj he).symm⟩
  | @stuck offset gap cs reached _ _ hne =>
    intro e he
    refine ⟨gap, cs.take (max 1 reached.length), cs.drop (max 1 reached.length), by simp, ?_,
      (Except.error.inj he).symm⟩
    obtain ⟨c, cs, rfl⟩ := List.exists_cons_of_ne_nil hne
    simp

theorem pointsInto_of_scan {e : ParseError} (h : scan source = .error e) :
    StandsAt source e.offset "" ∧ e.PointsInto source ∧ e ≠ .empty := by
  obtain ⟨front, fragment, back, hsource, hne, rfl⟩ :=
    (scanFrom_zero_eq_iff.mp h).exists_fragment e rfl
  have hstands : StandsAt source (0 + byteCount front) (String.ofList fragment) := by
    rw [Nat.zero_add]
    exact standsAt_of_toList hsource
  exact ⟨hstands.empty, ⟨by simpa using hne, hstands⟩, by simp⟩

/-! ### Errors of the reader -/

theorem mem_of_mem_stillOpen (ht : t ∈ stillOpen ts) : t ∈ ts ∧ t.token = .leftParen := by
  have hfold : ∀ (us opened : List Placed), t ∈ us.foldl Placed.track opened →
      t ∈ opened ∨ t ∈ us ∧ t.token = .leftParen := by
    intro us
    induction us with
    | nil => exact fun opened h => .inl h
    | cons u us ih =>
      intro opened h
      rcases ih _ h with h | ⟨hus, hparen⟩
      · rw [Placed.track] at h
        split at h
        next hu =>
          rcases List.mem_cons.mp h with rfl | h
          · exact .inr ⟨List.mem_cons_self, hu⟩
          · exact .inl h
        next => exact .inl (List.mem_of_mem_tail h)
        next => exact .inl h
      · exact .inr ⟨List.mem_cons_of_mem _ hus, hparen⟩
  exact (hfold ts [] ht).resolve_left List.not_mem_nil

theorem BreaksAt.hasTokenAt {i : Nat} {t : Token} (h : BreaksAt ts i ⟨t, p⟩)
    (hscan : scan source = .ok ts) : StandsAt source p "" ∧ HasTokenAt source p t :=
  have hat : HasTokenAt source p t := ⟨ts, hscan, List.mem_of_getElem? h.get⟩
  ⟨hat.standsAt, hat⟩

/-- What is blamed for an error stands in the source at the place of the error. -/
theorem pointsInto_of_blames {e : ParseError} (hscan : scan source = .ok ts)
    (h : e.Blames source.utf8ByteSize ts) :
    StandsAt source e.offset "" ∧ e.PointsInto source := by
  cases e with
  | invalidToken fragment p => exact h.elim
  | unexpectedToken expected found p =>
    obtain ⟨i, hi⟩ := h
    exact hi.hasTokenAt hscan
  | trailingToken found p =>
    obtain ⟨i, hi⟩ := h
    exact hi.hasTokenAt hscan
  | nestingTooDeep p =>
    obtain ⟨i, hi, -⟩ := h
    have hopens := opensGroupAt_of_mem hscan (List.mem_of_getElem? hi.get)
    exact ⟨hopens.standsAt, hopens⟩
  | unclosedGroup p =>
    obtain ⟨⟨token, place⟩, ht, rfl⟩ := Option.map_eq_some_iff.mp h.2
    obtain ⟨hmem, rfl⟩ := mem_of_mem_stillOpen (List.mem_of_mem_head? ht)
    have hopens := opensGroupAt_of_mem hscan hmem
    exact ⟨hopens.standsAt, hopens⟩
  | unexpectedEnd expected p =>
    obtain rfl := h.2
    exact ⟨standsAt_end source, rfl⟩
  | empty => exact ⟨⟨"", source, by simp, rfl⟩, trivial⟩

theorem scan_eq_nil_iff : scan source = .ok [] ↔ IsBlank source.toList := by
  constructor
  · intro h
    have htiles := tiles_of_scan h
    generalize source.toList = cs at htiles
    cases htiles with
    | nil hblank => exact hblank
  · exact fun h => scanFrom_zero_eq_iff.mpr (.done h)

/-- A source has the error that it is empty if it is blank. Every other error points to a place of
the source, between two characters, where what it is about is to be found. -/
theorem parse_pointsInto (source : String) :
    (parse source = .error .empty ↔
      ∀ c ∈ source.toList, c = ' ' ∨ c = '\t' ∨ c = '\r' ∨ c = '\n' ∨ c = '\x0c') ∧
    ∀ e, parse source = .error e →
      e.offset ≤ source.utf8ByteSize ∧ StandsAt source e.offset "" ∧ e.PointsInto source := by
  rw [show (∀ c ∈ source.toList, c = ' ' ∨ c = '\t' ∨ c = '\r' ∨ c = '\n' ∨ c = '\x0c') ↔
    scan source = .ok [] by simp only [scan_eq_nil_iff, IsBlank, isSpace_iff], parse]
  cases hscan : scan source with
  | error err =>
    obtain ⟨hstands, hpoints, hne⟩ := pointsInto_of_scan hscan
    refine ⟨by simpa using hne, fun e he => ?_⟩
    obtain rfl : err = e := Except.error.inj he
    exact ⟨hstands.le, hstands, hpoints⟩
  | ok ts =>
    refine ⟨⟨fun h => ?_, fun h => ?_⟩, fun e he => ?_⟩
    · rw [(Reading.source_blames h).1.mp rfl]
    · rw [Except.ok.inj h]
      rfl
    · obtain ⟨hstands, hpoints⟩ := pointsInto_of_blames hscan (Reading.source_blames he).2
      exact ⟨hstands.le, hstands, hpoints⟩

/-- The group that is not closed begins behind a text with a parenthesis and a letter of two
bytes. -/
theorem parse_pointsInto_unclosed :
    let source := "s = \"é(\" and (y < 2"
    parse source = .error (.unclosedGroup 14) ∧ 14 ≤ source.utf8ByteSize ∧
      StandsAt source 14 "" ∧ OpensGroupAt source 14 := by
  intro source
  have h : parse source = .error (.unclosedGroup 14) := by decide +kernel
  exact ⟨h, (parse_pointsInto source).2 _ h⟩

end

end FilterLang
