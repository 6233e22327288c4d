import Scriptlet.Value.Basic

/-!
Text of values.

A value is displayed when it is printed and inspected when it stands inside a list or an error
message.  The two differ for texts only, which are quoted when they are inspected.
-/

namespace Scriptlet.Value

mutual

def display : Value → String
  | .nil => "nil"
  | .bool true => "true"
  | .bool false => "false"
  | .int n => toString n.toInt
  | .float x => Decimal.ofFloat x
  | .str s => s
  | .list items => "[" ++ ", ".intercalate (inspectItems items) ++ "]"
  | .host f => "<native fn " ++ f.name ++ ">"
  | .closure f => "<fn " ++ f.name ++ ">"

def inspectItems : List Value → List String
  | [] => []
  | .str s :: rest => Text.quoted s :: inspectItems rest
  | item :: rest => display item :: inspectItems rest

end

def inspect : Value → String
  | .str s => Text.quoted s
  | v => v.display

def outline? : Value → Option String
  | .host f =>
      some ("Callable(Native \x7b name: " ++ Text.quoted f.name ++ ", arity: " ++
        toString f.arity ++ " \x7d)")
  | .closure f =>
      some ("Callable(User \x7b name: " ++ Text.quoted f.name ++ ", arity: " ++
        toString f.params.length ++ ", .. \x7d)")
  | _ => none

end Scriptlet.Value
