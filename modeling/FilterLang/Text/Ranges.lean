/-! Sets of characters given as ascending ranges of code points. -/

namespace FilterLang.Text

/-- Ranges of code points in ascending order, each with its first and last member. -/
abbrev Ranges := List (Nat × Nat)

/-- Looks a code point up; the search ends at the first range that begins beyond it. -/
def Ranges.contains (n : Nat) : Ranges → Bool
  | [] => false
  | (first, last) :: rest =>
    if n < first then false else if n ≤ last then true else Ranges.contains n rest

end FilterLang.Text
