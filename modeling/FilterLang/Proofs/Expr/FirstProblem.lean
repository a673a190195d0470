import FilterLang.Expr.Parse
import FilterLang.Proofs.Expr.Earliest
import FilterLang.Proofs.Token.MaximalMunch

/-! Which problem of a text is reported if it has several. The tokens that lead up to the first
malformed fragment can be looked at by themselves. If the reader stops at one of them, this token is
the first problem of the text, and what stands behind it has no say in that. Yet a text is scanned
to its end before anything is read, so the first problem is reported only where every fragment is a
token; where one is not, the fragment is reported in its place, however far behind it stands. -/

namespace FilterLang

namespace Token

/-! ### The tokens in front of a malformed fragment -/

/-- The tokens of a text in front of its first malformed fragment: all of them, if there is none. -/
inductive Leading (source : String) (ts : List Placed) : Prop
  | whole : scan source = .ok ts → Leading source ts
  | cut {front rest fragment : String} : source = front ++ rest →
      scan source = .error (.invalidToken fragment front.utf8ByteSize) →
      scan front = .ok ts → Leading source ts

section Leading

variable {offset : Nat} {cs v w : List Char} {ts us : List Placed} {source : String}
  {err : ParseError}

/-- A scan that fails has scanned the text in front of the place where it fails. -/
theorem MaximalMunch.exists_front {r : Except ParseError (List Placed)}
    (h : MaximalMunch offset cs r) :
    ∃ front rest ts, cs = front ++ rest ∧ MaximalMunch offset front (.ok ts) ∧
      ((rest = [] ∧ r = .ok ts) ∨
        ∃ fragment, r = .error (.invalidToken fragment (offset + byteCount front))) := by
  induction h with
  | @done offset gap hgap => exact ⟨gap, [], [], by simp, .done hgap, .inl ⟨rfl, rfl⟩⟩
  | @token offset gap lexeme rest p t r hgap _ hlong hp ht _ ih =>
    obtain ⟨front, back, ts, rfl, hfront, hr⟩ := ih
    -- No longer front of the whole text is a match, so none is of the part that is kept.
    have hlong' : LongestFront IsLexeme lexeme (lexeme ++ front) := by
      refine ⟨List.prefix_append _ _, hlong.holds, fun v hv => hlong.longest v (hv.trans ?_)⟩
      rw [← List.append_assoc]
      exact List.prefix_append _ _
    refine ⟨gap ++ (lexeme ++ front), back, ⟨t, offset + byteCount gap⟩ :: ts, by simp,
      .token hgap (hp.begins front) hlong' hp ht hfront, ?_⟩
    rcases hr with ⟨hback, rfl⟩ | ⟨fragment, rfl⟩
    · exact .inl ⟨hback, rfl⟩
    · refine .inr ⟨fragment, ?_⟩
      simp [Except.map, byteCount_append, Nat.add_assoc]
  | @malformed offset gap lexeme rest p hgap =>
    exact ⟨gap, lexeme ++ rest, [], rfl, .done hgap, .inr ⟨_, rfl⟩⟩
  | @stuck offset gap cs reached hgap =>
    exact ⟨gap, cs, [], rfl, .done hgap, .inr ⟨_, rfl⟩⟩

theorem exists_leading (source : String) : ∃ ts, Leading source ts := by
  obtain ⟨r, hr⟩ := exists_maximalMunch 0 source.toList
  have hscan : scan source = r := scanFrom_zero_eq_iff.mpr hr
  obtain ⟨front, rest, ts, hsplit, hfront, ⟨-, rfl⟩ | ⟨fragment, rfl⟩⟩ := hr.exists_front
  · exact ⟨ts, .whole hscan⟩
  · have hfront' : scan (String.ofList front) = .ok ts :=
      scanFrom_zero_eq_iff.mpr (by rwa [String.toList_ofList])
    have hsource : source = String.ofList front ++ String.ofList rest := by
      rw [← String.ofList_append, ← hsplit, String.ofList_toList]
    have herr : scan source =
        .error (.invalidToken fragment (String.ofList front).utf8ByteSize) := by
      rw [hscan, ← byteCount_toList, String.toList_ofList, Nat.zero_add]
    exact ⟨ts, .cut hsource herr hfront'⟩

/-- Two fronts of a text with equally many bytes are one. -/
theorem eq_of_prefix_of_byteCount_eq (hv : v <+: cs) (hw : w <+: cs)
    (h : byteCount v = byteCount w) : v = w := by
  have hfront : ∀ {v w : List Char}, v <+: w → byteCount v = byteCount w → v = w := by
    rintro v _ ⟨more, rfl⟩ h
    by_cases hmore : more = []
    · rw [hmore, List.append_nil]
    · have := byteCount_pos hmore
      rw [byteCount_append] at h
      omega
  rcases List.prefix_or_prefix_of_prefix hv hw with hvw | hwv
  · exact hfront hvw h
  · exact (hfront hwv h.symm).symm

theorem Leading.unique (hts : Leading source ts) (hus : Leading source us) : ts = us := by
  cases hts with
  | whole hts =>
    cases hus with
    | whole hus => exact Except.ok.inj (hts.symm.trans hus)
    | cut _ herr _ => cases hts.symm.trans herr
  | @cut front _ _ hsource herr hts =>
    cases hus with
    | whole hus => cases hus.symm.trans herr
    | @cut front' _ _ hsource' herr' hus =>
      have hbytes := (ParseError.invalidToken.inj (Except.error.inj (herr.symm.trans herr'))).2
      rw [← byteCount_toList, ← byteCount_toList] at hbytes
      have hv : front.toList <+: source.toList := ⟨_, by rw [hsource, String.toList_append]⟩
      have hw : front'.toList <+: source.toList := ⟨_, by rw [hsource', String.toList_append]⟩
      obtain rfl := String.toList_inj.mp (eq_of_prefix_of_byteCount_eq hv hw hbytes)
      exact Except.ok.inj (hts.symm.trans hus)

theorem Tiles.offset_lt (h : Tiles offset cs ts) : ∀ t ∈ ts, t.offset < offset + byteCount cs := by
  induction h with
  | nil _ => simp
  | @cons offset gap lexeme rest p _ _ _ hp _ _ ih =>
    have hpos : 0 < byteCount lexeme := byteCount_pos (IsLexeme.ne_nil ⟨p, hp.1⟩)
    simp only [byteCount_append]
    intro t ht
    rcases List.mem_cons.mp ht with rfl | ht
    · show offset + byteCount gap < _
      omega
    · have := ih t ht
      omega

/-- The tokens that lead up to a malformed fragment stand in front of it. -/
theorem Leading.offset_lt (hts : Leading source ts) (herr : scan source = .error err) :
    ∀ t ∈ ts, t.offset < err.offset := by
  cases hts with
  | whole hts => cases hts.symm.trans herr
  | cut _ herr' hts =>
    obtain rfl := Except.error.inj (herr'.symm.trans herr)
    simpa [byteCount_toList, ParseError.offset] using (tiles_of_scan hts).offset_lt

end Leading

end Token

/-! ### Where the reader stops -/

/-- Is it a token that the error is about? -/
def ParseError.AtToken : ParseError → Prop
  | .unexpectedToken _ _ _ => True
  | .trailingToken _ _ => True
  | .nestingTooDeep _ => True
  | _ => False

namespace Reader

variable {eof : Nat} {r : Reader} {ts : List Placed} {e : ParseError}

/-- Where the tokens end, the error is about what is missing. -/
theorem not_atToken_of_finish (h : r.finish eof = .error e) : ¬e.AtToken := by
  intro hat
  obtain ⟨gs, awaiting⟩ := r
  cases awaiting with
  | item before => cases h; exact hat
  | relation before o => cases h; exact hat
  | right before o rel => cases h; exact hat
  | joint c =>
    cases gs with
    | nil => cases h
    | cons g outer => cases h; exact hat

/-- An error that is about a token comes from the first one that the source cannot go on with. -/
theorem exists_halts (h : (Reading.source eof ts).outcome = .error e) (hat : e.AtToken) :
    ∃ read t more r, ts = read ++ t :: more ∧ Passes .chain maxDepth initial read r ∧
      Halts r t e := by
  cases ts with
  | nil => cases h; exact hat.elim
  | cons t ts =>
    rw [Reading.source, Reading.andThen] at h
    rcases hrun : Reading.chain 0 eof (t :: ts) with ⟨outcome, rest⟩
    rw [hrun] at h
    cases outcome with
    | error e' =>
      cases h
      rcases passes_of_run_error hrun with
        ⟨r, -, hfinish⟩ | ⟨read, u, more, r, hts, hread, hreject | hrefuse⟩
      · exact absurd hat (not_atToken_of_finish hfinish)
      · exact ⟨read, u, more, r, hts, hread, .reject hreject⟩
      · exact ⟨read, u, more, r, hts, hread, .refuse hrefuse⟩
    | ok c =>
      obtain ⟨read, hts, hread, hrest⟩ := passes_of_run hrun
      cases rest with
      | nil => cases h
      | cons u more =>
        cases h
        exact ⟨read, u, more, _, hts, hread,
          .stop (step_eq_stop_iff.mpr ⟨rfl, by simpa using hrest⟩)⟩

end Reader

open Token

variable {eof : Nat} {source : String} {ts : List Placed} {e : ParseError}

/-- Let the tokens in front of the first malformed fragment fail at one of them. In every text that
goes through the same tokens up to that one, its error is reported if the text scans; if not, then
the malformed fragment, which comes later, is reported instead. -/
theorem parse_of_leading (hts : Leading source ts)
    (he : (Reading.source eof ts).outcome = .error e) (hat : e.AtToken) :
    ∃ read t more, ts = read ++ t :: more ∧ t.offset = e.offset ∧
      ∀ text more', Leading text (read ++ t :: more') →
        (∀ us, scan text = .ok us → parse text = .error e) ∧
        ∀ err, scan text = .error err → e.offset < err.offset ∧ parse text = .error err := by
  obtain ⟨read, t, more, r, rfl, hread, hhalts⟩ := Reader.exists_halts he hat
  refine ⟨read, t, more, rfl, hhalts.offset_eq.symm, fun text more' htext => ⟨?_, ?_⟩⟩
  · intro us hus
    obtain rfl := htext.unique (.whole hus)
    rw [parse, hus]
    exact hhalts.source_eq hread
  · intro err herr
    refine ⟨?_, by rw [parse, herr]⟩
    rw [hhalts.offset_eq]
    exact htext.offset_lt herr t (by simp)

/-- A parenthesis that closes nothing, and behind it a sign that is no token. -/
theorem leading_unopened : Leading ") $" [⟨.rightParen, 0⟩] :=
  .cut (show ") $" = ") " ++ "$" from rfl) rfl rfl

/-- Nothing begins with a closing parenthesis. -/
theorem source_unopened (eof : Nat) :
    (Reading.source eof [⟨.rightParen, 0⟩]).outcome =
      .error (.unexpectedToken .operand .rightParen 0) := rfl

/-- The parenthesis is reported in front of tokens only. -/
theorem parse_of_leading_unopened :
    ∃ read t more, [⟨.rightParen, 0⟩] = read ++ t :: more ∧ t.offset = 0 ∧
      ∀ text more', Leading text (read ++ t :: more') →
        (∀ us, scan text = .ok us →
          parse text = .error (.unexpectedToken .operand .rightParen 0)) ∧
        ∀ err, scan text = .error err → 0 < err.offset ∧ parse text = .error err :=
  parse_of_leading leading_unopened (source_unopened 3) trivial

/-- The first problem of a text is reported, also where a fragment behind it is no token. -/
def ReportsFirstProblem : Prop :=
  ∀ source ts eof e, Leading source ts → (Reading.source eof ts).outcome = .error e → e.AtToken →
    parse source = .error e

/-- The parenthesis is the first problem, and what is reported is the sign behind it. -/
theorem not_reportsFirstProblem : ¬ReportsFirstProblem := by
  intro h
  have hfirst := h _ _ 3 _ leading_unopened (source_unopened 3) trivial
  have hlater : parse ") $" = .error (.invalidToken "$" 2) := rfl
  cases hfirst.symm.trans hlater

end FilterLang
