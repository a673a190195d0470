import FilterLang.Proofs.Token.Recognition

/-! What the automaton finds at the front of a text: the longest front that is a token of some
kind, and the longest one that can go on to be one. A front is said to be the longest with a
property for the text as a whole, so that both are unique and carry over from the kinds of the
automaton to the patterns. -/

namespace FilterLang.Token

/-- The longest front of a text that has a property. -/
structure LongestFront (P : List Char → Prop) (w cs : List Char) : Prop where
  front : w <+: cs
  holds : P w
  longest : ∀ v, v <+: cs → P v → v.length ≤ w.length

namespace LongestFront

variable {P Q : List Char → Prop} {c : Char} {v w cs : List Char}

theorem unique (hv : LongestFront P v cs) (hw : LongestFront P w cs) : v = w :=
  (List.prefix_of_prefix_length_le hv.front hw.front (hw.longest v hv.front hv.holds)).eq_of_length
    (Nat.le_antisymm (hw.longest v hv.front hv.holds) (hv.longest w hw.front hw.holds))

theorem congr (h : ∀ v, v <+: cs → (P v ↔ Q v)) : LongestFront P w cs ↔ LongestFront Q w cs :=
  ⟨fun ⟨hw, hP, hl⟩ => ⟨hw, (h w hw).mp hP, fun v hv hQ => hl v hv ((h v hv).mpr hQ)⟩,
    fun ⟨hw, hQ, hl⟩ => ⟨hw, (h w hw).mpr hQ, fun v hv hP => hl v hv ((h v hv).mp hP)⟩⟩

theorem cons (h : LongestFront (fun v => P (c :: v)) w cs) : LongestFront P (c :: w) (c :: cs) where
  front := List.cons_prefix_cons.mpr ⟨rfl, h.front⟩
  holds := h.holds
  longest v hv hP := by
    rcases List.prefix_cons_iff.mp hv with rfl | ⟨u, rfl, hu⟩
    · simp
    · simpa using h.longest u hu hP

/-- The empty front is the longest where the property ends with the next character. -/
theorem nil (h : P []) (hc : ∀ v, v <+: cs → v ≠ [] → ¬P v) : LongestFront P [] cs where
  front := List.nil_prefix
  holds := h
  longest v hv hP := by
    by_contra hlen
    exact hc v hv (by rintro rfl; simp at hlen) hP

end LongestFront

theorem exists_cons_of_prefix {c : Char} {cs v : List Char} (hv : v <+: c :: cs) (hne : v ≠ []) :
    ∃ u, v = c :: u ∧ u <+: cs :=
  (List.prefix_cons_iff.mp hv).resolve_left hne

namespace Progress

variable {p q : Progress} {c : Char} {v : List Char}

theorem read_cons_eq_none (h : p.step? c = none) : p.read (c :: v) = none := by simp [read, h]

theorem read_cons_eq (h : p.step? c = some q) : p.read (c :: v) = q.read v := by simp [read, h]

end Progress

/-- The automaton stops where the text it has read cannot go on. -/
theorem munchFrom_reach (p : Progress) (n : Nat) (best : Option (Kind × Nat)) (cs : List Char) :
    ∃ w, LongestFront (fun v => (p.read v).isSome) w cs ∧
      (munchFrom p n best cs).reach = n + w.length := by
  induction cs generalizing p n best with
  | nil => exact ⟨[], .nil rfl (by simp), rfl⟩
  | cons c cs ih =>
    rw [munchFrom]
    split
    next h =>
      refine ⟨[], .nil rfl fun v hv hne => ?_, rfl⟩
      obtain ⟨u, rfl, -⟩ := exists_cons_of_prefix hv hne
      simp [Progress.read_cons_eq_none h]
    next q h =>
      obtain ⟨w, hw, hreach⟩ := ih q (n + 1) _
      refine ⟨c :: w, .cons (by simpa only [Progress.read_cons_eq h] using hw), ?_⟩
      rw [hreach, List.length_cons]
      omega

/-- The automaton keeps the longest text that was complete after some character, or else what it
had before. -/
theorem munchFrom_best (p : Progress) (n : Nat) (best : Option (Kind × Nat)) (cs : List Char) :
    (∃ w k, LongestFront (fun v => v ≠ [] ∧ ((p.read v).bind Progress.kind?).isSome) w cs ∧
      (p.read w).bind Progress.kind? = some k ∧
      (munchFrom p n best cs).best = some (k, n + w.length)) ∨
    ((∀ v, v <+: cs → v ≠ [] → (p.read v).bind Progress.kind? = none) ∧
      (munchFrom p n best cs).best = best) := by
  induction cs generalizing p n best with
  | nil => exact .inr ⟨by simp, rfl⟩
  | cons c cs ih =>
    rw [munchFrom]
    split
    next h =>
      refine .inr ⟨fun v hv hne => ?_, rfl⟩
      obtain ⟨u, rfl, -⟩ := exists_cons_of_prefix hv hne
      simp [Progress.read_cons_eq_none h]
    next q h =>
      -- Either a longer text is complete later on, or the first character decides.
      rcases ih q (n + 1) _ with ⟨w, k, hw, hk, hbest⟩ | ⟨hnone, hbest⟩
      · refine .inl ⟨c :: w, k, .cons ⟨hw.front, ⟨by simp, ?_⟩, fun v hv hP => ?_⟩, ?_, ?_⟩
        · simpa [Progress.read_cons_eq h] using hw.holds.2
        · by_cases hne : v = []
          · simp [hne]
          · exact hw.longest v hv ⟨hne, by simpa [Progress.read_cons_eq h] using hP.2⟩
        · simpa [Progress.read_cons_eq h] using hk
        · rw [hbest, List.length_cons]
          congr 2
          omega
      · cases hkind : q.kind? with
        | some k =>
          refine .inl ⟨[c], k, .cons (.nil ?_ fun v hv hne hP => ?_), ?_, ?_⟩
          · simp [Progress.read, h, hkind]
          · simp [Progress.read_cons_eq h, hnone v hv hne] at hP
          · simp [Progress.read, h, hkind]
          · simpa only [hkind, List.length_singleton] using hbest
        | none =>
          refine .inr ⟨fun v hv hne => ?_, by simpa only [hkind] using hbest⟩
          obtain ⟨u, rfl, hu⟩ := exists_cons_of_prefix hv hne
          rw [Progress.read_cons_eq h]
          by_cases hempty : u = []
          · simpa [hempty, Progress.read] using hkind
          · exact hnone u hu hempty

/-- The match that the automaton finds is the longest front of some kind. -/
theorem munch_best (cs : List Char) :
    (∃ w k, LongestFront (fun v => (kindOf? v).isSome) w cs ∧ kindOf? w = some k ∧
      (munch cs).best = some (k, w.length)) ∨
    ((∀ v, v <+: cs → kindOf? v = none) ∧ (munch cs).best = none) := by
  have hne : ∀ v, (v ≠ [] ∧ (kindOf? v).isSome) ↔ (kindOf? v).isSome := by
    refine fun v => and_iff_right_of_imp ?_
    rintro h rfl
    cases h
  rcases munchFrom_best .start 0 none cs with ⟨w, k, hw, hk, hbest⟩ | ⟨hnone, hbest⟩
  · refine .inl ⟨w, k, (LongestFront.congr fun v _ => hne v).mp hw, hk, ?_⟩
    simpa only [munch, Nat.zero_add] using hbest
  · refine .inr ⟨fun v hv => ?_, hbest⟩
    by_cases h : v = []
    · rw [h]
      rfl
    · exact hnone v hv h

theorem munch_best_eq_some {k : Kind} {w cs : List Char}
    (hlong : LongestFront (fun v => (kindOf? v).isSome) w cs) (hkind : kindOf? w = some k) :
    (munch cs).best = some (k, w.length) := by
  rcases munch_best cs with ⟨v, l, hv, hl, hbest⟩ | ⟨hnone, -⟩
  · obtain rfl := hlong.unique hv
    rw [hbest, ← Option.some.inj (hkind.symm.trans hl)]
  · rw [hnone w hlong.front] at hkind
    cases hkind

/-- What the automaton reads is the longest front that some pattern goes on with. -/
theorem munch_reach (cs : List Char) :
    ∃ w, LongestFront (fun v => (Progress.start.read v).isSome) w cs ∧
      (munch cs).reach = w.length := by
  obtain ⟨w, hw, hreach⟩ := munchFrom_reach .start 0 none cs
  exact ⟨w, hw, by simpa only [munch, Nat.zero_add] using hreach⟩

end FilterLang.Token
