import FilterLang.Proofs.Expr.Earliest
import FilterLang.Proofs.Expr.Relocation
import FilterLang.Proofs.Expr.RoundTrip

/-! Texts put together. With a connective between them, the texts of two trees are the text of one
flat chain. With parentheses around the second, its tree becomes one more item of the first. This
takes one level of groups away from it, so the second text fails where it fails with one level less:
at its first parenthesis with all the levels that are left around it. -/

namespace FilterLang

/-! ### Running out of room -/

namespace Reader

variable {extent : Extent} {room : Nat} {r r' : Reader} {t : Placed} {ts : List Placed}

theorem Advances.length_lt (h : Advances extent room r t r') (ht : t.token = .leftParen) :
    r.groups.length < room := by
  cases h with
  | opened h => exact h
  | left => exact absurd ht (Operand.token_ne_leftParen _)
  | right => exact absurd ht (Operand.token_ne_leftParen _)
  | _ => cases ht

/-- A step goes on with other room, or there is none for the group that it opens. -/
theorem Advances.or_refuse (h : Advances extent room r t r') (room' : Nat) :
    Advances extent room' r t r' ∨
      r.step extent room' t = .refuse (.nestingTooDeep t.offset) := by
  cases h with
  | @opened gs before offset h =>
    by_cases hroom : gs.length < room'
    · exact .inl (.opened hroom)
    · exact .inr (step_eq_refuse_iff.mpr ⟨⟨before, rfl⟩, rfl, Nat.not_lt.mp hroom, rfl⟩)
  | left => exact .inl .left
  | relation => exact .inl .relation
  | right => exact .inl .right
  | connective h => exact .inl (.connective h)
  | closed => exact .inl .closed

/-- The reader goes through tokens with other room, or it comes to the first group that there is no
room for. -/
theorem Passes.or_refuse (h : Passes extent room r ts r') (room' : Nat) :
    Passes extent room' r ts r' ∨ ∃ read t more s, ts = read ++ t :: more ∧
      Passes extent room' r read s ∧
        s.step extent room' t = .refuse (.nestingTooDeep t.offset) := by
  induction h with
  | nil => exact .inl .nil
  | @cons r s r' t ts first _ ih =>
    rcases first.or_refuse room' with hfirst | hrefuse
    · rcases ih with hrest | ⟨read, u, more, s', rfl, hread, hrefuse⟩
      · exact .inl (.cons hfirst hrest)
      · exact .inr ⟨t :: read, u, more, s', rfl, .cons hfirst hread, hrefuse⟩
    · exact .inr ⟨[], t, ts, r, rfl, .nil, hrefuse⟩

/-- Within a tree that is too deep, the reader comes to a group that there is no room for. -/
theorem exists_refuse {c : Chain} (hts : ts.map Placed.token = c.tokens) (hdepth : room < c.depth) :
    ∃ read t more r, ts = read ++ t :: more ∧ Passes .chain room initial read r ∧
      r.step .chain room t = .refuse (.nestingTooDeep t.offset) := by
  rcases (passes_of_spelled hts (Nat.le_refl c.depth)).or_refuse room with hpasses | hrefuse
  · have hfits := (hpasses.fits (fits_initial room)).inner
    exact absurd hfits (Nat.not_le.mpr hdepth)
  · exact hrefuse

/-! ### Inside of other groups -/

/-- The state with other groups around it. -/
def within (gs : List OpenGroup) (r : Reader) : Reader := ⟨r.groups ++ gs, r.awaiting⟩

variable {gs : List OpenGroup}

theorem Advances.within (h : Advances .chain room r t r') (gs : List OpenGroup) :
    Advances .chain (room + gs.length) (r.within gs) t (r'.within gs) := by
  cases h with
  | opened h => exact .opened (by simpa using h)
  | left => exact .left
  | relation => exact .relation
  | right => exact .right
  | connective _ => exact .connective (.inr rfl)
  | closed => exact .closed

/-- What the reader does in a group it does as on the outermost level, with so much less room. -/
theorem Passes.within (h : Passes .chain room r ts r') (gs : List OpenGroup) :
    Passes .chain (room + gs.length) (r.within gs) ts (r'.within gs) := by
  induction h with
  | nil => exact .nil
  | cons first _ ih => exact .cons (first.within gs) ih

theorem refuse_within (h : r.step .chain room t = .refuse (.nestingTooDeep t.offset))
    (gs : List OpenGroup) :
    (r.within gs).step .chain (room + gs.length) t = .refuse (.nestingTooDeep t.offset) := by
  obtain ⟨hitem, ht, hroom, -⟩ := step_eq_refuse_iff.mp h
  refine step_eq_refuse_iff.mpr ⟨hitem, ht, ?_, rfl⟩
  rw [Reader.within, List.length_append]
  omega

end Reader

open Reader

/-- The token at a place is the first opening parenthesis with a number of groups open around it. -/
structure FirstInside (n : Nat) (ts : List Placed) (i : Nat) (t : Placed) : Prop where
  get : ts[i]? = some t
  opens : t.token = .leftParen
  inside : (stillOpen (ts.take i)).length = n
  first : ∀ j < i, ∀ u, ts[j]? = some u → u.token = .leftParen → (stillOpen (ts.take j)).length < n

theorem firstInside_of_refuse {n : Nat} {read more : List Placed} {t : Placed} {r : Reader}
    {e : ParseError} (hread : Passes .chain n initial read r)
    (ht : r.step .chain n t = .refuse e) : FirstInside n (read ++ t :: more) read.length t := by
  obtain ⟨-, hopens, hroom, -⟩ := step_eq_refuse_iff.mp ht
  refine ⟨by simp, hopens, ?_, fun j hj u hu hopens => ?_⟩
  · have hfits := (hread.fits (fits_initial n)).inner
    rw [List.take_left, hread.length_stillOpen]
    omega
  · rw [List.getElem?_append_left hj] at hu
    obtain ⟨hlt, rfl⟩ := List.getElem?_eq_some_iff.mp hu
    rw [List.take_append_of_le_length (Nat.le_of_lt hj)]
    -- The reader has gone through the earlier parenthesis, so there was room for its group.
    have hsplit : read.take j ++ read[j] :: read.drop (j + 1) = read := by simp
    rw [← hsplit] at hread
    obtain ⟨s, hbefore, hlast⟩ := hread.split
    cases hlast with
    | cons step _ =>
      rw [hbefore.length_stillOpen]
      exact step.length_lt hopens

/-- Behind a chain and in a group, the reader stops at the first group that is too deep for what is
left of the limit. -/
theorem Reading.source_group_of_deep {eof a b : Nat} {before ts rest : List Placed} {c d : Chain}
    {k : Connective} (hbefore : before.map Placed.token = c.tokens) (hc : c.depth ≤ maxDepth)
    (hts : ts.map Placed.token = d.tokens) (hd : maxDepth ≤ d.depth) (f : Nat → Nat) :
    ∃ i p, FirstInside (maxDepth - 1) ts i p ∧
      (source eof (before ++ ⟨.connective k, a⟩ :: ⟨.leftParen, b⟩ ::
        (ts.map (Placed.relocate f) ++ rest))).outcome = .error (.nestingTooDeep (f p.offset)) := by
  obtain ⟨read, p, more, r, rfl, hread, hrefuse⟩ :=
    exists_refuse hts (show maxDepth - 1 < d.depth from hd)
  refine ⟨_, p, firstInside_of_refuse hread hrefuse, ?_⟩
  let group : OpenGroup := ⟨b, .chain c k⟩
  have hfirst := passes_of_spelled hbefore hc
  have hgroup : Passes .chain maxDepth ⟨[], .joint c⟩ [⟨.connective k, a⟩, ⟨.leftParen, b⟩]
      ⟨[group], .item .nothing⟩ :=
    .cons (.connective (.inr rfl)) (.cons (.opened (by decide)) .nil)
  have hinner := hfirst.append (hgroup.append ((hread.relocate f).within [group]))
  have hlast : Reader.step .chain maxDepth ((r.relocate f).within [group]) (p.relocate f) =
      .refuse (.nestingTooDeep (f p.offset)) := by
    have hshift := (step_relocate f r p).trans (congrArg (Move.relocate f) hrefuse)
    exact refuse_within hshift [group]
  have hsplit : before ++ ⟨.connective k, a⟩ :: ⟨.leftParen, b⟩ ::
      ((read ++ p :: more).map (Placed.relocate f) ++ rest) =
      (before ++ ([⟨.connective k, a⟩, ⟨.leftParen, b⟩] ++ read.map (Placed.relocate f))) ++
        p.relocate f :: (more.map (Placed.relocate f) ++ rest) := by simp
  rw [hsplit]
  exact (Halts.refuse hlast).source_eq hinner

/-! ### The tokens of joined texts -/

section Joined

open Token

variable {s₁ s₂ : String} {ts₁ ts₂ : List Placed} {t₁ t₂ : Chain}

/-- A text that scans, with a connective behind it, scans in front of anything. -/
theorem scanFrom_connective (h : scan s₁ = .ok ts₁) (k : Connective) (cs : List Char) :
    scanFrom [] 0 0 ((s₁ ++ " " ++ k.render ++ " ").toList ++ cs) =
      scanFrom (⟨.connective k, s₁.utf8ByteSize + 1⟩ :: ts₁.reverse)
        (s₁ ++ " " ++ k.render ++ " ").utf8ByteSize 0 cs := by
  have hspace : IsBlank [' '] := by simp [IsBlank, isSpace]
  have hk : (Pattern.connective k).Reads k.render.toList := ⟨rfl, by simp⟩
  have hends : ∀ ds, EndsLexeme ([' '] ++ ds) := hspace.endsLexeme (by simp)
  have htext : (s₁ ++ " " ++ k.render ++ " ").toList ++ cs =
      s₁.toList ++ ([' '] ++ (k.render.toList ++ ([' '] ++ cs))) := by simp
  rw [htext, Token.scanFrom_append h (hends _), scanFrom_blank hspace,
    scanFrom_reads hk rfl (hends _), scanFrom_blank hspace, Placed.map_relocate_zero,
    List.append_nil]
  simp only [byteCount_toList, String.utf8ByteSize_append, Nat.zero_add]
  rfl

theorem scan_joined (h₁ : scan s₁ = .ok ts₁) (h₂ : scan s₂ = .ok ts₂) (k : Connective) :
    scan (s₁ ++ " " ++ k.render ++ " " ++ s₂) = .ok (ts₁ ++ ⟨.connective k, s₁.utf8ByteSize + 1⟩ ::
      ts₂.map (Placed.relocate ((s₁ ++ " " ++ k.render ++ " ").utf8ByteSize + ·))) := by
  have hend := Token.scanFrom_append h₂ endsLexeme_nil
    (⟨.connective k, s₁.utf8ByteSize + 1⟩ :: ts₁.reverse)
    (s₁ ++ " " ++ k.render ++ " ").utf8ByteSize
  rw [List.append_nil] at hend
  rw [scan, String.toList_append, scanFrom_connective h₁, hend, scanFrom]
  simp

theorem scan_joinedGroup (h₁ : scan s₁ = .ok ts₁) (h₂ : scan s₂ = .ok ts₂) (k : Connective) :
    scan (s₁ ++ " " ++ k.render ++ " (" ++ s₂ ++ ")") =
      .ok (ts₁ ++ ⟨.connective k, s₁.utf8ByteSize + 1⟩ ::
        ⟨.leftParen, (s₁ ++ " " ++ k.render ++ " ").utf8ByteSize⟩ ::
        (ts₂.map (Placed.relocate ((s₁ ++ " " ++ k.render ++ " (").utf8ByteSize + ·)) ++
          [⟨.rightParen, (s₁ ++ " " ++ k.render ++ " (" ++ s₂).utf8ByteSize⟩])) := by
  have htext : (s₁ ++ " " ++ k.render ++ " (" ++ s₂ ++ ")").toList =
      (s₁ ++ " " ++ k.render ++ " ").toList ++ ('(' :: (s₂.toList ++ [')'])) := by simp
  have hsize : (s₁ ++ " " ++ k.render ++ " (").utf8ByteSize =
      (s₁ ++ " " ++ k.render ++ " ").utf8ByteSize + 1 := by
    simp only [String.utf8ByteSize_append]
    rfl
  have hend : (s₁ ++ " " ++ k.render ++ " (" ++ s₂).utf8ByteSize =
      (s₁ ++ " " ++ k.render ++ " ").utf8ByteSize + 1 + s₂.utf8ByteSize := by
    rw [String.utf8ByteSize_append, hsize]
  rw [hend, hsize, scan, htext, scanFrom_connective h₁, scanFrom_leftParen,
    Token.scanFrom_append h₂ (endsLexeme_cons (.inr rfl) []), scanFrom_rightParen, scanFrom,
    byteCount_toList]
  simp only [List.reverse_cons, List.reverse_append, List.reverse_reverse, List.append_assoc,
    List.cons_append, List.nil_append]

end Joined

/-! ### The trees of joined texts -/

section Trees

variable {s₁ s₂ : String} {t₁ t₂ : Chain}

theorem parse_joined (h₁ : parse s₁ = .ok t₁) (h₂ : parse s₂ = .ok t₂) (k : Connective) :
    parse (s₁ ++ " " ++ k.render ++ " " ++ s₂) =
      .ok (t₁.extend ((k, t₂.first) :: t₂.rest)) := by
  obtain ⟨ts₁, hscan₁, htokens₁, hdepth₁⟩ := parse_eq_ok_iff.mp h₁
  obtain ⟨ts₂, hscan₂, htokens₂, hdepth₂⟩ := parse_eq_ok_iff.mp h₂
  refine parse_eq_ok_iff.mpr ⟨_, scan_joined hscan₁ hscan₂ k, ?_, ?_⟩
  · rw [Chain.tokens_extend, List.flatMap_cons, ← htokens₁]
    simp [← Chain.tokens_eq_first_rest, ← htokens₂, Function.comp_def, Placed.relocate]
  · exact Chain.depth_extend_le_iff.mpr
      ⟨hdepth₁, List.forall_mem_cons.mpr (Chain.depth_le_iff.mp hdepth₂)⟩

theorem parse_joinedGroup (h₁ : parse s₁ = .ok t₁) (h₂ : parse s₂ = .ok t₂)
    (hdepth : t₂.depth < maxDepth) (k : Connective) :
    parse (s₁ ++ " " ++ k.render ++ " (" ++ s₂ ++ ")") = .ok (.join t₁ k (.group t₂)) := by
  obtain ⟨ts₁, hscan₁, htokens₁, hdepth₁⟩ := parse_eq_ok_iff.mp h₁
  obtain ⟨ts₂, hscan₂, htokens₂, -⟩ := parse_eq_ok_iff.mp h₂
  refine parse_eq_ok_iff.mpr ⟨_, scan_joinedGroup hscan₁ hscan₂ k, ?_, ?_⟩
  · simp [Chain.tokens, Expr.tokens, ← htokens₁, ← htokens₂, Function.comp_def, Placed.relocate]
  · exact max_le hdepth₁ hdepth

theorem parse_joinedGroup_of_deep (h₁ : parse s₁ = .ok t₁) (h₂ : parse s₂ = .ok t₂)
    (hdepth : maxDepth ≤ t₂.depth) (k : Connective) :
    ∃ ts i p, Token.scan s₂ = .ok ts ∧ FirstInside (maxDepth - 1) ts i p ∧
      parse (s₁ ++ " " ++ k.render ++ " (" ++ s₂ ++ ")") =
        .error (.nestingTooDeep ((s₁ ++ " " ++ k.render ++ " (").utf8ByteSize + p.offset)) := by
  obtain ⟨ts₁, hscan₁, htokens₁, hdepth₁⟩ := parse_eq_ok_iff.mp h₁
  obtain ⟨ts₂, hscan₂, htokens₂, -⟩ := parse_eq_ok_iff.mp h₂
  obtain ⟨i, p, hp, houtcome⟩ := Reading.source_group_of_deep htokens₁ hdepth₁ htokens₂ hdepth _
  refine ⟨ts₂, i, p, hscan₂, hp, ?_⟩
  rw [parse, scan_joinedGroup hscan₁ hscan₂ k]
  exact houtcome

/-- Texts that are parsed can be joined. Side by side they give one flat chain. With parentheses
around the second text, its tree is the last item, if it leaves room for one more group; if not, the
first parenthesis is reported that has too many groups around it. -/
theorem parse_join (h₁ : parse s₁ = .ok t₁) (h₂ : parse s₂ = .ok t₂) (k : Connective) :
    parse (s₁ ++ " " ++ k.render ++ " " ++ s₂) =
      .ok ((Chain.one t₁.first).extend (t₁.rest ++ (k, t₂.first) :: t₂.rest)) ∧
    (t₂.depth ≤ 255 →
      parse (s₁ ++ " " ++ k.render ++ " (" ++ s₂ ++ ")") = .ok (.join t₁ k (.group t₂))) ∧
    (255 < t₂.depth → ∃ ts i p, Token.scan s₂ = .ok ts ∧ FirstInside 255 ts i p ∧
      parse (s₁ ++ " " ++ k.render ++ " (" ++ s₂ ++ ")") =
        .error (.nestingTooDeep ((s₁ ++ " " ++ k.render ++ " (").utf8ByteSize + p.offset))) := by
  refine ⟨?_, fun h => ?_, fun h => parse_joinedGroup_of_deep h₁ h₂ h k⟩
  · rw [Chain.extend_append, Chain.extend_first_rest]
    exact parse_joined h₁ h₂ k
  · exact parse_joinedGroup h₁ h₂ (Nat.lt_succ_of_le h) k

/-- A comparison inside of a number of groups. -/
def Chain.nested : Nat → Chain
  | 0 => .one (.comparison ⟨anyOperand, .equal, anyOperand⟩)
  | n + 1 => .one (.group (nested n))

open Chain (nested)

theorem Chain.depth_nested (n : Nat) : (nested n).depth = n := by
  induction n with
  | zero => rfl
  | succ n ih => rw [nested, Chain.depth, Expr.depth, ih]

theorem parse_nested {n : Nat} (h : n ≤ maxDepth) : parse (nested n).render = .ok (nested n) := by
  refine Chain.Writable.parse_render ⟨?_, by rwa [Chain.depth_nested]⟩
  clear h
  induction n with
  | zero =>
    intro d hd
    obtain rfl := List.mem_singleton.mp hd
    exact ⟨trivial, trivial⟩
  | succ n ih => exact ih

/-- With 255 groups the second tree fits into one more, with 256 it does not. -/
theorem parse_join_nested :
    parse ((nested 0).render ++ " " ++ Connective.or.render ++ " (" ++ (nested 255).render ++ ")") =
      .ok (.join (nested 0) .or (.group (nested 255))) ∧
    ∃ ts i p, Token.scan (nested 256).render = .ok ts ∧ FirstInside 255 ts i p ∧
      parse ((nested 0).render ++ " " ++ Connective.or.render ++ " (" ++ (nested 256).render ++ ")") =
        .error (.nestingTooDeep
          (((nested 0).render ++ " " ++ Connective.or.render ++ " (").utf8ByteSize + p.offset)) := by
  have hzero : parse (nested 0).render = .ok (nested 0) := parse_nested (by decide)
  have hfits : parse (nested 255).render = .ok (nested 255) := parse_nested (by decide)
  have hdeep : parse (nested 256).render = .ok (nested 256) := parse_nested (by decide)
  exact ⟨(parse_join hzero hfits .or).2.1 (Chain.depth_nested 255).le,
    (parse_join hzero hdeep .or).2.2 (by rw [Chain.depth_nested]; decide)⟩

end Trees

end FilterLang
