import Scriptlet.Proofs.Tree.Parts
import Scriptlet.Value.Operator

/-!
# Compound assignments in trees

Which names a tree changes where they are bound, down to the bodies of the functions that are
defined in it.
-/

namespace Scriptlet

namespace Expr

/-- The expression itself is a compound assignment to the name. -/
def IsUpdate (x : String) : Expr → Prop
  | .assign name op _ => name.lexeme = x ∧ (BinaryOp.ofCompound? op.kind).isSome
  | _ => False

inductive Updates (x : String) : Expr → Prop where
  | here {e : Expr} (h : e.IsUpdate x) : Updates x e
  | part {e part : Expr} (hpart : part ∈ e.parts) (h : Updates x part) : Updates x e

theorem updates_iff {x : String} {e : Expr} :
    e.Updates x ↔ e.IsUpdate x ∨ ∃ part ∈ e.parts, part.Updates x := by
  constructor
  · rintro (h | ⟨hpart, h⟩)
    · exact .inl h
    · exact .inr ⟨_, hpart, h⟩
  · rintro (h | ⟨part, hpart, h⟩)
    · exact .here h
    · exact .part hpart h

section Nodes

variable {x : String}

@[simp] theorem not_updates_literal (value : Literal) : ¬(literal value).Updates x := by
  rw [updates_iff]
  simp [IsUpdate, parts]

@[simp] theorem not_updates_var (name : Token) : ¬(var name).Updates x := by
  rw [updates_iff]
  simp [IsUpdate, parts]

@[simp] theorem updates_assign_iff {name op : Token} {value : Expr} :
    (assign name op value).Updates x ↔
      name.lexeme = x ∧ (BinaryOp.ofCompound? op.kind).isSome ∨ value.Updates x := by
  rw [updates_iff]
  simp only [IsUpdate, parts, List.mem_singleton, exists_eq_left]

@[simp] theorem updates_call_iff {callee : Expr} {paren : Token} {arguments : List Expr} :
    (call callee paren arguments).Updates x ↔
      callee.Updates x ∨ ∃ e ∈ arguments, e.Updates x := by
  rw [updates_iff]
  simp only [IsUpdate, parts, List.mem_cons, or_and_right, exists_or, exists_eq_left, false_or]

end Nodes

theorem all_of_updates {may : String → Prop} {e : Expr} (h : ∀ x, e.Updates x → may x) :
    e.All fun e => ∀ x, e.IsUpdate x → may x :=
  .intro (fun x hx => h x (.here hx)) fun part hpart =>
    all_of_updates (e := part) fun x hx => h x (.part hpart hx)
termination_by e
decreasing_by exact sizeOf_part hpart

end Expr

namespace Stmt

inductive Updates (x : String) : Stmt → Prop where
  | expr {s : Stmt} {e : Expr} (he : e ∈ s.exprs) (h : e.Updates x) : Updates x s
  | stmt {s t : Stmt} (ht : t ∈ s.stmts) (h : Updates x t) : Updates x s

theorem updates_iff {x : String} {s : Stmt} :
    s.Updates x ↔ (∃ e ∈ s.exprs, e.Updates x) ∨ ∃ t ∈ s.stmts, t.Updates x := by
  constructor
  · rintro (⟨he, h⟩ | ⟨ht, h⟩)
    · exact .inl ⟨_, he, h⟩
    · exact .inr ⟨_, ht, h⟩
  · rintro (⟨e, he, h⟩ | ⟨t, ht, h⟩)
    · exact .expr he h
    · exact .stmt ht h

@[simp] theorem updates_expr_iff {x : String} {e : Expr} : (expr e).Updates x ↔ e.Updates x := by
  rw [updates_iff]
  simp only [exprs, stmts, List.mem_singleton, exists_eq_left, List.not_mem_nil, false_and,
    exists_false, or_false]

theorem all_of_updates {may : String → Prop} {s : Stmt} (h : ∀ x, s.Updates x → may x) :
    s.All (fun e => ∀ x, e.IsUpdate x → may x) fun _ => True :=
  .intro trivial (fun _ he => Expr.all_of_updates fun x hx => h x (.expr he hx)) fun t ht =>
    all_of_updates (s := t) fun x hx => h x (.stmt ht hx)
termination_by s
decreasing_by exact sizeOf_stmt ht

/-- No other names are changed by compound assignments in the body. -/
def UpdatesWithin (may : String → Prop) (body : List Stmt) : Prop :=
  ∀ s ∈ body, s.All (fun e => ∀ x, e.IsUpdate x → may x) fun _ => True

theorem updatesWithin_of_updates {may : String → Prop} {body : List Stmt}
    (h : ∀ x, (∃ s ∈ body, s.Updates x) → may x) : UpdatesWithin may body :=
  fun s hs => all_of_updates fun x hx => h x ⟨s, hs, hx⟩

end Stmt

end Scriptlet
