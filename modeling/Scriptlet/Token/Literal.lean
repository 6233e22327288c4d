import Scriptlet.Number.Decimal

/-!
Literal values: what a literal token or a literal expression is worth.
-/

namespace Scriptlet

inductive Literal where
  | nil
  | bool (b : Bool)
  | int (n : Int64)
  | float (x : Float)
  | str (s : String)
  deriving DecidableEq, Repr, Inhabited

namespace Literal

def display : Literal → String
  | .nil => "nil"
  | .bool true => "true"
  | .bool false => "false"
  | .int n => toString n.toInt
  | .float x => Decimal.ofFloat x
  | .str s => s

end Literal

end Scriptlet
