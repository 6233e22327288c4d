import Scriptlet.Proofs.Tree.Renumber
import Scriptlet.Tree.Listing

/-!
# Forms of trees

The form of a tree is made of the forms of its parts, and line numbers do not show in it.
-/

namespace Scriptlet

open Text

variable (f : Nat → Nat)

@[simp] theorem Token.sexp_renumber (t : Token) : (t.renumber f).sexp = t.sexp := rfl

namespace Expr

@[simp] theorem sexps_eq (es : List Expr) : sexps es = es.map sexp := by
  induction es with
  | nil => rfl
  | cons e rest ih => rw [sexps, ih, List.map_cons]

mutual

@[simp] theorem sexp_renumber (e : Expr) : (e.renumber f).sexp = e.sexp := by
  cases e with
  | literal value => rfl
  | group inner => simp [renumber, sexp, sexp_renumber inner]
  | unary op operand => simp [renumber, sexp, sexp_renumber operand]
  | binary left op right => simp [renumber, sexp, sexp_renumber left, sexp_renumber right]
  | logical left op right => simp [renumber, sexp, sexp_renumber left, sexp_renumber right]
  | range left op right inclusive =>
      simp [renumber, sexp, sexp_renumber left, sexp_renumber right]
  | var name => rfl
  | assign name op value => simp [renumber, sexp, sexp_renumber value]
  | call callee paren arguments =>
      rw [renumber, sexp, sexp, sexp_renumber callee, sexps_renumberEach arguments]
  | sequence left right => simp [renumber, sexp, sexp_renumber left, sexp_renumber right]

theorem sexps_renumberEach (es : List Expr) : sexps (renumberEach f es) = sexps es := by
  cases es with
  | nil => rfl
  | cons e rest => rw [renumberEach, sexps, sexps, sexp_renumber e, sexps_renumberEach rest]

end

end Expr

namespace Stmt

@[simp] theorem sexps_eq (body : List Stmt) : sexps body = body.map sexp := by
  induction body with
  | nil => rfl
  | cons s rest ih => rw [sexps, ih, List.map_cons]

@[simp] theorem elseSexps_none : elseSexps none = [] := rfl

@[simp] theorem elseSexps_some (body : List Stmt) :
    elseSexps (some body) = [.group (atom "else" :: body.map sexp)] := by
  rw [elseSexps, sexps_eq]

mutual

@[simp] theorem sexp_renumber (s : Stmt) : (s.renumber f).sexp = s.sexp := by
  cases s with
  | expr e => simp [renumber, sexp]
  | print keyword values newline => simp [renumber, sexp, Function.comp_def]
  | assign names values => simp [renumber, sexp, Function.comp_def]
  | block body => rw [renumber, sexp, sexp, sexps_renumberAll body]
  | ifDo conditions branches otherwise =>
      rw [renumber, sexp, sexp, thenSexps_renumberBranches conditions branches,
        elseSexps_renumberElse otherwise]
  | unlessDo condition body otherwise =>
      rw [renumber, sexp, sexp, Expr.sexp_renumber, sexps_renumberAll body,
        elseSexps_renumberElse otherwise]
  | whileDo condition body =>
      rw [renumber, sexp, sexp, Expr.sexp_renumber, sexps_renumberAll body]
  | untilDo condition body =>
      rw [renumber, sexp, sexp, Expr.sexp_renumber, sexps_renumberAll body]
  | loopDo body => rw [renumber, sexp, sexp, sexps_renumberAll body]
  | forDo name iterable body =>
      rw [renumber, sexp, sexp, Token.sexp_renumber, Expr.sexp_renumber, sexps_renumberAll body]
  | caseDo subject conditions branches otherwise =>
      rw [renumber, sexp, sexp, Expr.sexp_renumber,
        whenSexps_renumberBranches conditions branches, elseSexps_renumberElse otherwise]
  | define name params body =>
      rw [renumber, sexp, sexp, Token.sexp_renumber, sexps_renumberAll body, List.map_map]
      rfl
  | returnFrom keyword value => cases value <;> simp [renumber, sexp]
  | breakLoop keyword => rfl
  | nextRound keyword => rfl

theorem sexps_renumberAll (body : List Stmt) : sexps (renumberAll f body) = sexps body := by
  cases body with
  | nil => rfl
  | cons s rest => rw [renumberAll, sexps, sexps, sexp_renumber s, sexps_renumberAll rest]

theorem thenSexps_renumberBranches (conditions : List Expr) (branches : List (List Stmt)) :
    thenSexps (conditions.map (Expr.renumber f)) (renumberBranches f branches) =
      thenSexps conditions branches := by
  match conditions, branches with
  | [], _ => simp [thenSexps]
  | _ :: _, [] => simp [thenSexps, renumberBranches]
  | condition :: conditions, body :: branches =>
      rw [renumberBranches, List.map_cons, thenSexps, thenSexps, Expr.sexp_renumber,
        sexps_renumberAll body, thenSexps_renumberBranches conditions branches]

theorem whenSexps_renumberBranches (conditions : List Expr) (branches : List (List Stmt)) :
    whenSexps (conditions.map (Expr.renumber f)) (renumberBranches f branches) =
      whenSexps conditions branches := by
  match conditions, branches with
  | [], _ => simp [whenSexps]
  | _ :: _, [] => simp [whenSexps, renumberBranches]
  | condition :: conditions, body :: branches =>
      rw [renumberBranches, List.map_cons, whenSexps, whenSexps, Expr.sexp_renumber,
        sexps_renumberAll body, whenSexps_renumberBranches conditions branches]

theorem elseSexps_renumberElse (otherwise : Option (List Stmt)) :
    elseSexps (renumberElse f otherwise) = elseSexps otherwise := by
  cases otherwise with
  | none => rfl
  | some body => rw [renumberElse, elseSexps, elseSexps, sexps_renumberAll body]

end

end Stmt

end Scriptlet
