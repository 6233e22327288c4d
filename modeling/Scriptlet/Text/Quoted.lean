/-!
The body of a string literal.

A backslash always takes the next character with it.  Seven characters after a backslash have a
meaning of their own; before any other the backslash stands for itself.
-/

namespace Scriptlet.Text.Quoted

def escapeValue? : Char → Option Char
  | 'n' => some '\n'
  | 't' => some '\t'
  | 'r' => some '\r'
  | 'f' => some '\x0c'
  | '\'' => some '\''
  | '"' => some '"'
  | '\\' => some '\\'
  | _ => none

def escapeValue (c : Char) : List Char :=
  match escapeValue? c with
  | some v => [v]
  | none => ['\\', c]

/-- Decodes onto the characters read so far, which stand in reverse order. -/
def decodeOnto (done : List Char) : List Char → List Char
  | '\\' :: c :: rest => decodeOnto ((escapeValue c).reverse ++ done) rest
  | c :: rest => decodeOnto (c :: done) rest
  | [] => done.reverse

def decode (body : List Char) : List Char :=
  decodeOnto [] body

end Scriptlet.Text.Quoted
