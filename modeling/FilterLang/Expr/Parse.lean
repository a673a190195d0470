import FilterLang.Expr.Names
import FilterLang.Expr.Reading
import FilterLang.Expr.Text
import FilterLang.Token.Scan

/-! From text to trees and back. -/

namespace FilterLang

/-- The tree that a text is written for. All tokens are found before the tree is read, so that a
fragment which is no token is reported first wherever it stands. -/
def parse (source : String) : Except ParseError Chain :=
  match Token.scan source with
  | .ok tokens => (Reading.source source.utf8ByteSize tokens).outcome
  | .error e => .error e

/-- Reads the canonical text of a tree and tells whether the tree comes back. -/
def Chain.reread (c : Chain) : Except ParseError Bool := (parse c.render).map fun d => d.same c

end FilterLang
