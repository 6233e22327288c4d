import Scriptlet.Source.Lexed
import Scriptlet.Token.Basic

/-!
Diagnostics: what is reported about a text that is no program.
-/

namespace Scriptlet

inductive Location where
  | line
  | endOfInput
  | endOfLine
  | lexeme (text : String)
  deriving DecidableEq, Repr, Inhabited

def Location.text : Location → String
  | .line => ""
  | .endOfInput => " at end"
  | .endOfLine => " at end of line"
  | .lexeme text => " at '" ++ text ++ "'"

/-- A diagnostic about a token points at its spelling, if the token can be seen. -/
def Location.ofToken (t : Token) : Location :=
  match t.kind with
  | .eof => .endOfInput
  | .newline => .endOfLine
  | _ => .lexeme t.lexeme

structure Diagnostic where
  line : Nat
  location : Location
  message : String
  deriving DecidableEq, Repr, Inhabited

namespace Diagnostic

def text (d : Diagnostic) : String :=
  "[line " ++ toString d.line ++ "] Error" ++ d.location.text ++ ": " ++ d.message

/-- Two diagnostics that say the same about the same line, wherever on it they point. -/
def repeats (d e : Diagnostic) : Bool :=
  d.line = e.line && d.message = e.message

def ofLexError (e : Source.LexError) : Diagnostic :=
  ⟨e.line, .line, e.fault.message⟩

end Diagnostic

end Scriptlet
