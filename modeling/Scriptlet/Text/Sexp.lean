import Scriptlet.Text.Escape

/-!
Parenthesised forms: words, quoted texts and groups of forms.

A group is written in parentheses with one blank between its members.
-/

namespace Scriptlet.Text

inductive Sexp where
  | word (text : List Char)
  | quoted (text : List Char)
  | group (members : List Sexp)
  deriving Inhabited, Repr

namespace Sexp

mutual

def charsBefore (rest : List Char) : Sexp → List Char
  | .word text => text ++ rest
  | .quoted text => quotedChars text ++ rest
  | .group members => '(' :: spacedBefore (')' :: rest) members

def spacedBefore (rest : List Char) : List Sexp → List Char
  | [] => rest
  | first :: others => charsBefore (blanksBefore rest others) first

def blanksBefore (rest : List Char) : List Sexp → List Char
  | [] => rest
  | first :: others => ' ' :: charsBefore (blanksBefore rest others) first

end

def chars (s : Sexp) : List Char :=
  s.charsBefore []

def render (s : Sexp) : String :=
  String.ofList s.chars

end Sexp

end Scriptlet.Text
