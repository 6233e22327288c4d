import Scriptlet.Text.Escape
import Scriptlet.Token.Basic

/-!
What is read off a source text: tokens, closed by the end mark, and faults.

Each is numbered by the line on which its text starts.  A fault never stops the reading.
-/

namespace Scriptlet.Source

inductive Fault where
  | unexpectedCharacter (c : Char)
  | unterminatedString
  | unterminatedBlockComment
  | invalidIdentifier
  | numberOutOfRange
  deriving DecidableEq, Repr

def Fault.message : Fault → String
  | .unexpectedCharacter c =>
      "Unexpected character '" ++ Text.visible (String.singleton c) ++ "'."
  | .unterminatedString => "Unterminated string."
  | .unterminatedBlockComment => "Unterminated block comment, expected '=end'."
  | .invalidIdentifier => "Invalid identifier."
  | .numberOutOfRange => "Number literal is out of range."

structure LexError where
  line : Nat
  fault : Fault
  deriving DecidableEq, Repr

structure Lexed where
  tokens : List Token
  errors : List LexError
  deriving DecidableEq, Repr

end Scriptlet.Source
