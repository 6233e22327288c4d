import Scriptlet.Proofs.Tree.Parts
import Scriptlet.Proofs.Tree.Renumber

/-!
# Tokens in trees

A token stands in a tree if some node of the tree keeps it.  Trees show their line numbers in these
tokens only, so a map that leaves the lines of all of them alone leaves the tree alone.
-/

namespace Scriptlet

variable {known : Token → Prop} {f : Nat → Nat} {t : Token}

private theorem map_of_fixed {α : Type} {g : α → α} {l : List α} (h : ∀ a ∈ l, g a = a) :
    l.map g = l := by
  rw [List.map_congr_left h, List.map_id']

namespace Expr

variable {e : Expr}

inductive Has (t : Token) : Expr → Prop where
  | own {e : Expr} : t ∈ e.ownTokens → Has t e
  | part {e part : Expr} : part ∈ e.parts → Has t part → Has t e

theorem keeps_iff : e.Keeps known ↔ ∀ t, Has t e → known t := by
  constructor
  · intro h t ht
    induction ht with
    | own hown => exact (all_iff.mp h).1 t hown
    | part hpart _ ih => exact ih (h.parts _ hpart)
  · intro h
    induction e using (measure fun e : Expr => sizeOf e).wf.induction with
    | h e ih =>
        refine .intro (fun t ht => h t (.own ht)) fun part hpart => ?_
        exact ih part (sizeOf_part hpart) fun t ht => h t (.part hpart ht)

theorem renumber_of_keeps (h : e.Keeps fun t => f t.line = t.line) : e.renumber f = e := by
  induction h with
  | @intro e hnode _ ih =>
      have htoken : ∀ t ∈ e.ownTokens, t.renumber f = t := by
        intro t ht
        rw [Token.renumber, hnode t ht]
      cases e with
      | call callee paren arguments =>
          have harguments : arguments.map (renumber f) = arguments :=
            map_of_fixed fun e he => ih e (List.mem_cons_of_mem callee he)
          simp_all [renumber, parts, ownTokens]
      | _ => simp_all [renumber, parts, ownTokens]

end Expr

namespace Stmt

variable {s : Stmt}

inductive Has (t : Token) : Stmt → Prop where
  | own {s : Stmt} : t ∈ s.ownTokens → Has t s
  | expr {s : Stmt} {e : Expr} : e ∈ s.exprs → e.Has t → Has t s
  | stmt {s inner : Stmt} : inner ∈ s.stmts → Has t inner → Has t s

theorem keeps_iff : s.Keeps known ↔ ∀ t, Has t s → known t := by
  constructor
  · intro h t ht
    induction ht with
    | own hown => exact (all_iff.mp h).1 t hown
    | expr hexpr ht => exact Expr.keeps_iff.mp (h.exprs _ hexpr) t ht
    | stmt hinner _ ih => exact ih (h.stmts _ hinner)
  · intro h
    induction s using (measure fun s : Stmt => sizeOf s).wf.induction with
    | h s ih =>
        refine .intro (fun t ht => h t (.own ht)) (fun e he => ?_) fun inner hinner => ?_
        · exact Expr.keeps_iff.mpr fun t ht => h t (.expr he ht)
        · exact ih inner (sizeOf_stmt hinner) fun t ht => h t (.stmt hinner ht)

private theorem branches_of_fixed {branches : List (List Stmt)}
    (h : ∀ s ∈ branches.flatten, s.renumber f = s) :
    branches.map (List.map (renumber f)) = branches :=
  map_of_fixed fun _ hbody => map_of_fixed fun s hs => h s (List.mem_flatten_of_mem hbody hs)

private theorem otherwise_of_fixed {otherwise : Option (List Stmt)}
    (h : ∀ s ∈ otherwise.getD [], s.renumber f = s) :
    otherwise.map (List.map (renumber f)) = otherwise := by
  cases otherwise with
  | none => rfl
  | some body => exact congrArg some (map_of_fixed h)

theorem renumber_of_keeps (h : s.Keeps fun t => f t.line = t.line) : s.renumber f = s := by
  induction h with
  | @intro s hnode hexprs _ ih =>
      have htoken : ∀ t ∈ s.ownTokens, t.renumber f = t := by
        intro t ht
        rw [Token.renumber, hnode t ht]
      have hexpr : ∀ e ∈ s.exprs, e.renumber f = e :=
        fun e he => Expr.renumber_of_keeps (hexprs e he)
      clear hnode hexprs
      cases s with
      | ifDo conditions branches otherwise =>
          simp only [stmts, exprs, List.forall_mem_append] at ih hexpr
          rw [renumber, renumberBranches_eq, renumberElse_eq, map_of_fixed hexpr,
            branches_of_fixed ih.1, otherwise_of_fixed ih.2]
      | caseDo subject conditions branches otherwise =>
          simp only [stmts, exprs, List.forall_mem_append, List.forall_mem_cons] at ih hexpr
          rw [renumber, renumberBranches_eq, renumberElse_eq, hexpr.1, map_of_fixed hexpr.2,
            branches_of_fixed ih.1, otherwise_of_fixed ih.2]
      | unlessDo condition body otherwise =>
          simp only [stmts, List.forall_mem_append] at ih
          rw [renumber, renumberAll_eq, renumberElse_eq, hexpr condition (by simp [exprs]),
            map_of_fixed ih.1, otherwise_of_fixed ih.2]
      | returnFrom keyword value => cases value <;> simp_all [renumber, ownTokens, exprs]
      | _ => simp_all [renumber, exprs, stmts, ownTokens, map_of_fixed]

end Stmt

end Scriptlet
