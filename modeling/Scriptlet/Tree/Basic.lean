import Scriptlet.Token.Basic

/-!
Syntax trees.

Expressions have a value, statements are carried out for their effect.  A node keeps the tokens
that errors and listings speak of: operators, names, and the keyword or parenthesis whose line is
reported.
-/

namespace Scriptlet

inductive Expr where
  | literal (value : Literal)
  | group (inner : Expr)
  | unary (op : Token) (operand : Expr)
  | binary (left : Expr) (op : Token) (right : Expr)
  | logical (left : Expr) (op : Token) (right : Expr)
  | range (left : Expr) (op : Token) (right : Expr) (inclusive : Bool)
  | var (name : Token)
  | assign (name : Token) (op : Token) (value : Expr)
  | call (callee : Expr) (paren : Token) (arguments : List Expr)
  | sequence (left : Expr) (right : Expr)
  deriving Inhabited, Repr

/-- Statements.  The names and values of `assign`, and the conditions and branches of `ifDo` and
`caseDo`, are lists side by side: nothing here says that the one is as long as the other. -/
inductive Stmt where
  | expr (e : Expr)
  | print (keyword : Token) (values : List Expr) (newline : Bool)
  | assign (names : List Token) (values : List Expr)
  | block (body : List Stmt)
  | ifDo (conditions : List Expr) (branches : List (List Stmt)) (otherwise : Option (List Stmt))
  | unlessDo (condition : Expr) (body : List Stmt) (otherwise : Option (List Stmt))
  | whileDo (condition : Expr) (body : List Stmt)
  | untilDo (condition : Expr) (body : List Stmt)
  | loopDo (body : List Stmt)
  | forDo (name : Token) (iterable : Expr) (body : List Stmt)
  | caseDo (subject : Expr) (conditions : List Expr) (branches : List (List Stmt))
      (otherwise : Option (List Stmt))
  | define (name : Token) (params : List Token) (body : List Stmt)
  | returnFrom (keyword : Token) (value : Option Expr)
  | breakLoop (keyword : Token)
  | nextRound (keyword : Token)
  deriving Inhabited, Repr

end Scriptlet
