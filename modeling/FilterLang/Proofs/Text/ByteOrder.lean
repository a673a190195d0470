import FilterLang.Value.Compare
import Mathlib.Data.String.Basic
import Mathlib.Order.Compare

/-! The order of strings. Strings are compared by their characters, which is the order of their
UTF-8 encodings: the bytes of a character are digits of its code point, and the first byte tells how
many there are, so the smaller code point has the smaller byte where two encodings first differ. -/

namespace FilterLang

namespace Text

variable {c d : Char} {cs ds : List Char} {v w : ℕ} {xs ys : List UInt8}

/-- The smaller number has the smaller one of the first digits to the base 64 that differ. -/
theorem digits_lt (h : v < w) :
    v / 262144 < w / 262144 ∨ v / 262144 = w / 262144 ∧ (v / 4096 < w / 4096 ∨
      v / 4096 = w / 4096 ∧ (v / 64 < w / 64 ∨ v / 64 = w / 64)) := by
  omega

theorem byte_lt_iff (hv : v < 256) (hw : w < 256) : UInt8.ofNat v < UInt8.ofNat w ↔ v < w := by
  rw [UInt8.lt_iff_toNat_lt, UInt8.toNat_ofNat_of_lt' hv, UInt8.toNat_ofNat_of_lt' hw]

theorem byte_eq_iff (hv : v < 256) (hw : w < 256) : UInt8.ofNat v = UInt8.ofNat w ↔ v = w := by
  rw [← UInt8.toNat_inj, UInt8.toNat_ofNat_of_lt' hv, UInt8.toNat_ofNat_of_lt' hw]

/-- The character with the smaller code point has the smaller encoding, whatever follows. -/
theorem compare_encode_append (h : c < d) (xs ys : List UInt8) :
    compare (String.utf8EncodeChar c ++ xs) (String.utf8EncodeChar d ++ ys) = .lt := by
  have hlt : c.val.toNat < d.val.toNat := h
  have hd : d.val.toNat < 0x110000 := by
    have hvalid : d.val.toNat.isValidChar := d.valid
    unfold Nat.isValidChar at hvalid
    omega
  unfold String.utf8EncodeChar
  generalize c.val.toNat = v at *
  generalize d.val.toNat = w at *
  dsimp only
  have hdigits := digits_lt hlt
  have hlead : v / 262144 % 8 = v / 262144 ∧ w / 262144 % 8 = w / 262144 := by omega
  -- Encodings of different lengths differ in the first byte, those of one length at some digit.
  split_ifs <;>
    simp (disch := omega) only [List.cons_append, List.nil_append, List.compare_cons_cons,
      Ordering.then_eq_lt, Std.compare_eq_lt, Std.compare_eq_iff_eq, byte_lt_iff, byte_eq_iff] <;>
    omega

theorem compare_append_left (ws xs ys : List UInt8) :
    compare (ws ++ xs) (ws ++ ys) = compare xs ys := by
  induction ws with
  | nil => rfl
  | cons w ws ih =>
    rw [List.cons_append, List.cons_append, List.compare_cons_cons, Std.ReflOrd.compare_self, ih]
    rfl

/-- The encoding of a text. -/
def bytes (cs : List Char) : List UInt8 := cs.flatMap String.utf8EncodeChar

theorem compare_bytes_of_lt (h : cs < ds) : compare (bytes cs) (bytes ds) = .lt := by
  induction cs generalizing ds with
  | nil =>
    cases ds with
    | nil => exact absurd h (List.not_lt_nil [])
    | cons d ds =>
      obtain ⟨x, xs, hd⟩ := List.exists_cons_of_ne_nil (String.utf8EncodeChar_ne_nil (c := d))
      rw [bytes, bytes, List.flatMap_cons, hd]
      rfl
  | cons c cs ih =>
    cases ds with
    | nil => exact absurd h (List.not_lt_nil _)
    | cons d ds =>
      rw [bytes, bytes, List.flatMap_cons, List.flatMap_cons]
      rcases List.cons_lt_cons_iff.mp h with hcd | ⟨rfl, hrest⟩
      · exact compare_encode_append hcd _ _
      · rw [compare_append_left]
        exact ih hrest

theorem toUTF8_eq (s : String) : s.toUTF8.data.toList = bytes s.toList := by
  rw [String.toUTF8, ← String.utf8Encode_toList, List.utf8Encode, List.data_toByteArray, bytes]

/-- Strings are ordered as their encodings are. -/
theorem compare_eq_compare_toUTF8 (s t : String) :
    compare s t = compare s.toUTF8.data.toList t.toUTF8.data.toList := by
  rw [toUTF8_eq, toUTF8_eq]
  rcases lt_trichotomy s t with h | rfl | h
  · rw [compare_lt_iff_lt.mpr h, compare_bytes_of_lt (String.lt_iff_toList_lt.mp h)]
  · rw [Std.ReflOrd.compare_self, Std.ReflOrd.compare_self]
  · rw [compare_gt_iff_gt.mpr h, Std.OrientedOrd.eq_swap,
      compare_bytes_of_lt (String.lt_iff_toList_lt.mp h)]
    rfl

end Text

theorem Value.order?_text (s t : String) : (text s).order? (text t) =
    some (some (compare s.toUTF8.data.toList t.toUTF8.data.toList)) :=
  congrArg (some ∘ some) (Text.compare_eq_compare_toUTF8 s t)

end FilterLang
