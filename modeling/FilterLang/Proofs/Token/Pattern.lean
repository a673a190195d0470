import FilterLang.Token.Scan
import Mathlib.Computability.Language

/-! The token patterns as regular languages, each written as its regular expression. A keyword is
a pattern of its own, although its text also has the form of a name. Blank text is no pattern;
it only separates tokens. -/

namespace FilterLang.Token

open Computability

/-- The single characters of a class. -/
def oneOf (p : Char → Bool) : Language Char := {cs | ∃ c, p c ∧ cs = [c]}

/-- Runs of characters of a class, with at least one. -/
def many (p : Char → Bool) : Language Char := oneOf p * (oneOf p)∗

/-- The one given character. -/
def single (c : Char) : Language Char := oneOf (· == c)

/-- The one given text. -/
def exactly (text : String) : Language Char := {text.toList}

/-- The texts of a language, or nothing. -/
def optional (l : Language Char) : Language Char := 1 + l

/-- A minus or nothing. -/
def minusSign : Language Char := optional (single '-')

/-- The exponent of a real numeral. -/
def exponentPart : Language Char :=
  oneOf isMark * (optional (oneOf fun c => c == '+' || c == '-') * many Char.isDigit)

/-- What may stand between quotes: a character other than the quote and the backslash, or a
backslash with any character but a line feed behind it. -/
def quotedItem : Language Char :=
  oneOf (fun c => c != '"' && c != '\\') + single '\\' * oneOf (· != '\n')

/-- The families of tokens. -/
inductive Pattern where
  | real
  | integer
  | text
  | boolean (b : Bool)
  | connective (k : Connective)
  | name
  | leftParen
  | rightParen
  | relation (r : Relation)

namespace Pattern

/-- The texts of a pattern. -/
def language : Pattern → Language Char
  | .real =>
    minusSign * (many Char.isDigit * (single '.' * (many Char.isDigit * optional exponentPart))) +
    minusSign * (single '.' * (many Char.isDigit * optional exponentPart)) +
    minusSign * (many Char.isDigit * exponentPart)
  | .integer => minusSign * many Char.isDigit
  | .text => single '"' * (quotedItem∗ * single '"')
  | .boolean b => exactly (if b then "true" else "false")
  | .connective k => exactly k.render
  | .name => oneOf beginsWord * (oneOf continuesWord)∗
  | .leftParen => exactly "("
  | .rightParen => exactly ")"
  | .relation r => exactly r.render

/-- Is the pattern a keyword? -/
def IsKeyword : Pattern → Prop
  | .boolean _ => True
  | .connective _ => True
  | _ => False

/-- The token of a text of the pattern, unless its value does not exist. -/
def token? : Pattern → List Char → Option Token
  | .real, cs => (real? cs).map fun x => .literal (.real x)
  | .integer, cs => (integer? cs).map fun n => .literal (.integer n)
  | .text, cs => (Text.Quoted.decode (cs.drop 1).dropLast).map fun s =>
    .literal (.text (String.ofList s))
  | .boolean b, _ => some (.literal (.boolean b))
  | .connective k, _ => some (.connective k)
  | .name, cs => some (.name (String.ofList cs))
  | .leftParen, _ => some .leftParen
  | .rightParen, _ => some .rightParen
  | .relation r, _ => some (.relation r)

end Pattern

/-! ### Reading a language from the left -/

section Residual

variable {p : Char → Bool} {l m : Language Char} {c d : Char} {cs : List Char}

theorem mem_oneOf : cs ∈ oneOf p ↔ ∃ c, p c ∧ cs = [c] := Iff.rfl

attribute [simp] Language.notMem_zero

@[simp] theorem mem_exactly {text : String} : cs ∈ exactly text ↔ cs = text.toList := Iff.rfl

@[simp] theorem mem_optional : cs ∈ optional l ↔ cs = [] ∨ cs ∈ l := Iff.rfl

/-- The sum of two languages as `simp` writes it. -/
@[simp] theorem mem_sup : cs ∈ l ⊔ m ↔ cs ∈ l ∨ cs ∈ m := Iff.rfl

@[simp] theorem nil_notMem_oneOf_mul : [] ∉ oneOf p * l := by
  simp [Language.mem_mul, mem_oneOf]

@[simp] theorem cons_mem_oneOf_mul : c :: cs ∈ oneOf p * l ↔ p c ∧ cs ∈ l := by
  constructor
  · rintro ⟨_, ⟨d, hd, rfl⟩, rest, hrest, h⟩
    obtain ⟨rfl, rfl⟩ := List.cons.inj h
    exact ⟨hd, hrest⟩
  · rintro ⟨hc, hcs⟩
    exact ⟨[c], ⟨c, hc, rfl⟩, cs, hcs, rfl⟩

@[simp] theorem nil_notMem_single_mul : [] ∉ single d * l := nil_notMem_oneOf_mul

@[simp] theorem cons_mem_single_mul : c :: cs ∈ single d * l ↔ c = d ∧ cs ∈ l := by
  rw [single, cons_mem_oneOf_mul, beq_iff_eq]

@[simp] theorem optional_mul_eq (l m : Language Char) : optional l * m = m + l * m := by
  rw [optional, add_mul, one_mul]

@[simp] theorem many_mul_eq (p : Char → Bool) (m : Language Char) :
    many p * m = oneOf p * ((oneOf p)∗ * m) := by
  rw [many, mul_assoc]

theorem star_mul_eq (l m : Language Char) : l∗ * m = m + l * (l∗ * m) := by
  conv_lhs => rw [← Language.one_add_self_mul_kstar_eq_kstar, add_mul, one_mul, mul_assoc]

@[simp] theorem nil_mem_oneOf_star_mul : [] ∈ (oneOf p)∗ * m ↔ [] ∈ m := by
  rw [star_mul_eq]
  simp

@[simp] theorem cons_mem_oneOf_star_mul :
    c :: cs ∈ (oneOf p)∗ * m ↔ (p c ∧ cs ∈ (oneOf p)∗ * m) ∨ c :: cs ∈ m := by
  conv_lhs => rw [star_mul_eq, Language.mem_add, cons_mem_oneOf_mul]
  exact or_comm

@[simp] theorem nil_notMem_single : [] ∉ single d := by simp [single, mem_oneOf]

@[simp] theorem cons_mem_single : c :: cs ∈ single d ↔ c = d ∧ cs = [] := by
  simp [single, mem_oneOf]

@[simp] theorem nil_mem_oneOf_star : [] ∈ (oneOf p)∗ := Language.nil_mem_kstar _

@[simp] theorem cons_mem_oneOf_star : c :: cs ∈ (oneOf p)∗ ↔ p c ∧ cs ∈ (oneOf p)∗ := by
  have h : c :: cs ∈ (oneOf p)∗ * 1 ↔ _ := cons_mem_oneOf_star_mul
  simpa using h

@[simp] theorem nil_notMem_many : [] ∉ many p := nil_notMem_oneOf_mul

theorem mem_oneOf_star_iff : cs ∈ (oneOf p)∗ ↔ cs = [] ∨ cs ∈ many p := by
  rw [many, ← Language.one_add_self_mul_kstar_eq_kstar, Language.mem_add, Language.mem_one,
    Language.one_add_self_mul_kstar_eq_kstar]

@[simp] theorem cons_mem_many : c :: cs ∈ many p ↔ p c ∧ cs ∈ (oneOf p)∗ := cons_mem_oneOf_mul

theorem mem_oneOf_star : cs ∈ (oneOf p)∗ ↔ ∀ c ∈ cs, p c := by
  induction cs with
  | nil => simp
  | cons c cs ih => simp [ih]

theorem mem_many : cs ∈ many p ↔ cs ≠ [] ∧ ∀ c ∈ cs, p c := by
  cases cs with
  | nil => simp
  | cons c cs => simp [mem_oneOf_star]

theorem quotedItem_star_mul_eq (m : Language Char) :
    quotedItem∗ * m = m + (oneOf (fun c => c != '"' && c != '\\') * (quotedItem∗ * m) +
      single '\\' * (oneOf (· != '\n') * (quotedItem∗ * m))) :=
  calc quotedItem∗ * m = m + quotedItem * (quotedItem∗ * m) := star_mul_eq _ _
    _ = m + (oneOf (fun c => c != '"' && c != '\\') + single '\\' * oneOf (· != '\n')) *
          (quotedItem∗ * m) := rfl
    _ = _ := by rw [add_mul, mul_assoc]

@[simp] theorem nil_mem_quotedItem_star_mul : [] ∈ quotedItem∗ * m ↔ [] ∈ m := by
  rw [quotedItem_star_mul_eq]
  simp

@[simp] theorem cons_mem_quotedItem_star_mul :
    c :: cs ∈ quotedItem∗ * m ↔
      c :: cs ∈ m ∨ ((c ≠ '"' ∧ c ≠ '\\') ∧ cs ∈ quotedItem∗ * m) ∨
        (c = '\\' ∧ cs ∈ oneOf (· != '\n') * (quotedItem∗ * m)) := by
  conv_lhs => rw [quotedItem_star_mul_eq]
  simp only [Language.mem_add, cons_mem_oneOf_mul, cons_mem_single_mul, Bool.and_eq_true,
    bne_iff_ne]

@[simp] theorem nil_notMem_exponentPart : [] ∉ exponentPart := nil_notMem_oneOf_mul

@[simp] theorem cons_mem_exponentPart :
    c :: cs ∈ exponentPart ↔
      isMark c ∧ cs ∈ optional (oneOf fun c => c == '+' || c == '-') * many Char.isDigit :=
  cons_mem_oneOf_mul

end Residual

end FilterLang.Token
