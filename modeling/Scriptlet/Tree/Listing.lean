import Scriptlet.Text.Sexp
import Scriptlet.Tree.Basic

/-!
Listings of syntax trees.

An operation is a group that starts with the operator as it was spelled; a statement is a group
that starts with a word for its kind.  Line numbers are the only part of a tree that a listing
leaves out.
-/

namespace Scriptlet

open Text

def atom (text : String) : Sexp :=
  .word text.toList

def Token.sexp (t : Token) : Sexp :=
  atom t.lexeme

def Literal.sexp : Literal → Sexp
  | .str s => .quoted s.toList
  | value => atom value.display

namespace Expr

mutual

def sexp : Expr → Sexp
  | .literal value => value.sexp
  | .group inner => .group [atom "group", inner.sexp]
  | .unary op operand => .group [op.sexp, operand.sexp]
  | .binary left op right => .group [op.sexp, left.sexp, right.sexp]
  | .logical left op right => .group [op.sexp, left.sexp, right.sexp]
  | .range left op right _ => .group [op.sexp, left.sexp, right.sexp]
  | .var name => name.sexp
  | .assign name op value => .group [op.sexp, name.sexp, value.sexp]
  | .call callee _ arguments => .group (atom "call" :: callee.sexp :: sexps arguments)
  | .sequence left right => .group [atom ",", left.sexp, right.sexp]

def sexps : List Expr → List Sexp
  | [] => []
  | e :: rest => e.sexp :: sexps rest

end

def listing (e : Expr) : String :=
  e.sexp.render

end Expr

namespace Stmt

mutual

def sexp : Stmt → Sexp
  | .expr e => .group [atom "expr", e.sexp]
  | .print keyword values _ => .group (keyword.sexp :: Expr.sexps values)
  | .assign names values =>
      .group (atom "=" :: .group (names.map Token.sexp) :: Expr.sexps values)
  | .block body => .group (atom "block" :: sexps body)
  | .ifDo conditions branches otherwise =>
      .group (atom "if" :: thenSexps conditions branches ++ elseSexps otherwise)
  | .unlessDo condition body otherwise =>
      .group (atom "unless" :: condition.sexp :: .group (atom "then" :: sexps body) ::
        elseSexps otherwise)
  | .whileDo condition body => .group (atom "while" :: condition.sexp :: sexps body)
  | .untilDo condition body => .group (atom "until" :: condition.sexp :: sexps body)
  | .loopDo body => .group (atom "loop" :: sexps body)
  | .forDo name iterable body =>
      .group (atom "for" :: name.sexp :: iterable.sexp :: sexps body)
  | .caseDo subject conditions branches otherwise =>
      .group (atom "case" :: subject.sexp :: whenSexps conditions branches ++
        elseSexps otherwise)
  | .define name params body =>
      .group (atom "def" :: name.sexp :: .group (params.map Token.sexp) :: sexps body)
  | .returnFrom _ value => .group (atom "return" :: (value.map Expr.sexp).toList)
  | .breakLoop _ => .group [atom "break"]
  | .nextRound _ => .group [atom "next"]

def sexps : List Stmt → List Sexp
  | [] => []
  | s :: rest => s.sexp :: sexps rest

def thenSexps : List Expr → List (List Stmt) → List Sexp
  | condition :: conditions, body :: branches =>
      condition.sexp :: .group (atom "then" :: sexps body) :: thenSexps conditions branches
  | _, _ => []

def whenSexps : List Expr → List (List Stmt) → List Sexp
  | condition :: conditions, body :: branches =>
      .group (atom "when" :: condition.sexp :: sexps body) :: whenSexps conditions branches
  | _, _ => []

def elseSexps : Option (List Stmt) → List Sexp
  | none => []
  | some body => [.group (atom "else" :: sexps body)]

end

def listing (s : Stmt) : String :=
  s.sexp.render

def programText (program : List Stmt) : String :=
  "\n".intercalate (program.map listing)

def programListing (program : List Stmt) : String :=
  let text := programText program
  if text.isEmpty then text else text ++ "\n"

end Stmt

end Scriptlet
