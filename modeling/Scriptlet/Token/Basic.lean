import Scriptlet.Text.Escape
import Scriptlet.Token.Kind
import Scriptlet.Token.Literal

/-!
Tokens: a kind, the exact spelling, the value of a literal, and the line on which the spelling
starts.

A line is a number of any size.  Whoever keeps lines in thirty-two bits finds the same for all texts
with fewer than 2 ^ 32 - 1 newlines, in which no line is too great.
-/

namespace Scriptlet

structure Token where
  kind : Kind
  lexeme : String
  literal : Option Literal
  line : Nat
  deriving DecidableEq, Repr, Inhabited

namespace Token

def eof (line : Nat) : Token :=
  ⟨.eof, "", none, line⟩

def display (t : Token) : String :=
  let shown := t.kind.label ++ " '" ++ Text.visible t.lexeme ++ "'"
  match t.literal with
  | none => shown
  | some value => shown ++ " " ++ value.display

def listing (ts : List Token) : String :=
  String.join (ts.map fun t => toString t.line ++ " " ++ t.display ++ "\n")

end Token

end Scriptlet
