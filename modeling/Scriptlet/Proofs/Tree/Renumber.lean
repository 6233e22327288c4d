import Scriptlet.Grammar.Error
import Scriptlet.Source.Lexed
import Scriptlet.Tree.Basic

/-!
# Changing line numbers

A map on line numbers changes every token of a tree and every error, and nothing else of them.
Text that is put in front of a source moves the source down, which is such a change.
-/

namespace Scriptlet

def Token.renumber (f : Nat → Nat) (t : Token) : Token :=
  { t with line := f t.line }

section Tokens

variable (f : Nat → Nat) (t : Token)

@[simp] theorem Token.kind_renumber : (t.renumber f).kind = t.kind := rfl

@[simp] theorem Token.lexeme_renumber : (t.renumber f).lexeme = t.lexeme := rfl

@[simp] theorem Token.literal_renumber : (t.renumber f).literal = t.literal := rfl

@[simp] theorem Token.line_renumber : (t.renumber f).line = f t.line := rfl

@[simp] theorem Token.renumber_id : Token.renumber id = id := rfl

end Tokens

/-! ## Trees -/

namespace Expr

mutual

def renumber (f : Nat → Nat) : Expr → Expr
  | .literal value => .literal value
  | .group inner => .group (inner.renumber f)
  | .unary op operand => .unary (op.renumber f) (operand.renumber f)
  | .binary left op right => .binary (left.renumber f) (op.renumber f) (right.renumber f)
  | .logical left op right => .logical (left.renumber f) (op.renumber f) (right.renumber f)
  | .range left op right inclusive =>
      .range (left.renumber f) (op.renumber f) (right.renumber f) inclusive
  | .var name => .var (name.renumber f)
  | .assign name op value => .assign (name.renumber f) (op.renumber f) (value.renumber f)
  | .call callee paren arguments =>
      .call (callee.renumber f) (paren.renumber f) (renumberEach f arguments)
  | .sequence left right => .sequence (left.renumber f) (right.renumber f)

def renumberEach (f : Nat → Nat) : List Expr → List Expr
  | [] => []
  | e :: rest => e.renumber f :: renumberEach f rest

end

@[simp] theorem renumberEach_eq (f : Nat → Nat) (es : List Expr) :
    renumberEach f es = es.map (renumber f) := by
  induction es with
  | nil => rfl
  | cons e rest ih => rw [renumberEach, ih, List.map_cons]

mutual

private theorem renumber_id_apply (e : Expr) : e.renumber id = e := by
  cases e with
  | literal value => rfl
  | group inner => simp [renumber, renumber_id_apply inner]
  | unary op operand => simp [renumber, renumber_id_apply operand]
  | binary left op right => simp [renumber, renumber_id_apply left, renumber_id_apply right]
  | logical left op right => simp [renumber, renumber_id_apply left, renumber_id_apply right]
  | range left op right inclusive =>
      simp [renumber, renumber_id_apply left, renumber_id_apply right]
  | var name => rfl
  | assign name op value => simp [renumber, renumber_id_apply value]
  | call callee paren arguments =>
      rw [renumber, renumber_id_apply callee, renumberEach_id arguments, Token.renumber_id, id]
  | sequence left right => simp [renumber, renumber_id_apply left, renumber_id_apply right]

private theorem renumberEach_id (es : List Expr) : renumberEach id es = es := by
  cases es with
  | nil => rfl
  | cons e rest => rw [renumberEach, renumber_id_apply e, renumberEach_id rest]

end

@[simp] theorem renumber_id : renumber id = id :=
  funext renumber_id_apply

end Expr

namespace Stmt

mutual

def renumber (f : Nat → Nat) : Stmt → Stmt
  | .expr e => .expr (e.renumber f)
  | .print keyword values newline =>
      .print (keyword.renumber f) (values.map (Expr.renumber f)) newline
  | .assign names values =>
      .assign (names.map (Token.renumber f)) (values.map (Expr.renumber f))
  | .block body => .block (renumberAll f body)
  | .ifDo conditions branches otherwise =>
      .ifDo (conditions.map (Expr.renumber f)) (renumberBranches f branches)
        (renumberElse f otherwise)
  | .unlessDo condition body otherwise =>
      .unlessDo (condition.renumber f) (renumberAll f body) (renumberElse f otherwise)
  | .whileDo condition body => .whileDo (condition.renumber f) (renumberAll f body)
  | .untilDo condition body => .untilDo (condition.renumber f) (renumberAll f body)
  | .loopDo body => .loopDo (renumberAll f body)
  | .forDo name iterable body =>
      .forDo (name.renumber f) (iterable.renumber f) (renumberAll f body)
  | .caseDo subject conditions branches otherwise =>
      .caseDo (subject.renumber f) (conditions.map (Expr.renumber f)) (renumberBranches f branches)
        (renumberElse f otherwise)
  | .define name params body =>
      .define (name.renumber f) (params.map (Token.renumber f)) (renumberAll f body)
  | .returnFrom keyword value => .returnFrom (keyword.renumber f) (value.map (Expr.renumber f))
  | .breakLoop keyword => .breakLoop (keyword.renumber f)
  | .nextRound keyword => .nextRound (keyword.renumber f)

def renumberAll (f : Nat → Nat) : List Stmt → List Stmt
  | [] => []
  | s :: rest => s.renumber f :: renumberAll f rest

def renumberBranches (f : Nat → Nat) : List (List Stmt) → List (List Stmt)
  | [] => []
  | body :: rest => renumberAll f body :: renumberBranches f rest

def renumberElse (f : Nat → Nat) : Option (List Stmt) → Option (List Stmt)
  | none => none
  | some body => some (renumberAll f body)

end

@[simp] theorem renumberAll_eq (f : Nat → Nat) (body : List Stmt) :
    renumberAll f body = body.map (renumber f) := by
  induction body with
  | nil => rfl
  | cons s rest ih => rw [renumberAll, ih, List.map_cons]

@[simp] theorem renumberBranches_eq (f : Nat → Nat) (branches : List (List Stmt)) :
    renumberBranches f branches = branches.map (List.map (renumber f)) := by
  induction branches with
  | nil => rfl
  | cons body rest ih => rw [renumberBranches, ih, renumberAll_eq, List.map_cons]

@[simp] theorem renumberElse_eq (f : Nat → Nat) (otherwise : Option (List Stmt)) :
    renumberElse f otherwise = otherwise.map (List.map (renumber f)) := by
  cases otherwise <;> simp [renumberElse]

mutual

private theorem renumber_id_apply (s : Stmt) : s.renumber id = s := by
  cases s with
  | expr e => simp [renumber]
  | print keyword values newline => simp [renumber]
  | assign names values => simp [renumber]
  | block body => rw [renumber, renumberAll_id body]
  | ifDo conditions branches otherwise =>
      rw [renumber, Expr.renumber_id, renumberBranches_id branches, renumberElse_id otherwise,
        List.map_id]
  | unlessDo condition body otherwise =>
      rw [renumber, Expr.renumber_id, renumberAll_id body, renumberElse_id otherwise, id]
  | whileDo condition body => rw [renumber, Expr.renumber_id, renumberAll_id body, id]
  | untilDo condition body => rw [renumber, Expr.renumber_id, renumberAll_id body, id]
  | loopDo body => rw [renumber, renumberAll_id body]
  | forDo name iterable body =>
      rw [renumber, Expr.renumber_id, renumberAll_id body, Token.renumber_id, id, id]
  | caseDo subject conditions branches otherwise =>
      rw [renumber, Expr.renumber_id, renumberBranches_id branches, renumberElse_id otherwise,
        List.map_id, id]
  | define name params body =>
      rw [renumber, renumberAll_id body, Token.renumber_id, List.map_id, id]
  | returnFrom keyword value => cases value <;> simp [renumber]
  | breakLoop keyword => rfl
  | nextRound keyword => rfl

private theorem renumberAll_id (body : List Stmt) : renumberAll id body = body := by
  cases body with
  | nil => rfl
  | cons s rest => rw [renumberAll, renumber_id_apply s, renumberAll_id rest]

private theorem renumberBranches_id (branches : List (List Stmt)) :
    renumberBranches id branches = branches := by
  cases branches with
  | nil => rfl
  | cons body rest => rw [renumberBranches, renumberAll_id body, renumberBranches_id rest]

private theorem renumberElse_id (otherwise : Option (List Stmt)) :
    renumberElse id otherwise = otherwise := by
  cases otherwise with
  | none => rfl
  | some body => rw [renumberElse, renumberAll_id body]

end

@[simp] theorem renumber_id : renumber id = id :=
  funext renumber_id_apply

end Stmt

/-! ## Errors -/

def Source.LexError.renumber (f : Nat → Nat) (e : Source.LexError) : Source.LexError :=
  { e with line := f e.line }

namespace Grammar

def Cause.renumber (f : Nat → Nat) : Cause → Cause
  | .unclosed closers opener line => .unclosed closers opener (f line)
  | cause => cause

def SyntaxError.renumber (f : Nat → Nat) (e : SyntaxError) : SyntaxError :=
  ⟨e.token.renumber f, e.cause.renumber f⟩

@[simp] theorem Cause.renumber_id : Cause.renumber id = id := by
  funext cause
  cases cause <;> rfl

@[simp] theorem SyntaxError.renumber_id : SyntaxError.renumber id = id := by
  funext e
  simp [renumber]

end Grammar

end Scriptlet
