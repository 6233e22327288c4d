import Scriptlet.Tree.Basic

/-!
# Parts of trees

The expressions and statements that stand right inside a node, and what it means for a property of
nodes to hold throughout a tree, down to the bodies of the functions that are defined in it.  A node
also keeps some of the tokens it was read from.
-/

namespace Scriptlet

namespace Expr

def parts : Expr → List Expr
  | .literal _ | .var _ => []
  | .group inner => [inner]
  | .unary _ operand => [operand]
  | .binary left _ right | .logical left _ right | .range left _ right _ => [left, right]
  | .assign _ _ value => [value]
  | .call callee _ arguments => callee :: arguments
  | .sequence left right => [left, right]

variable {p : Expr → Prop} {e part : Expr}

theorem sizeOf_pos (e : Expr) : 0 < sizeOf e := by
  cases e <;> exact Nat.pos_of_ne_zero (by simp)

theorem sizeOf_part (h : part ∈ e.parts) : sizeOf part < sizeOf e := by
  cases e with
  | call callee paren arguments =>
      rcases List.mem_cons.mp h with rfl | h
      · simp
        omega
      · have hlt := List.sizeOf_lt_of_mem h
        simp
        omega
  | _ => grind [parts]

inductive All (p : Expr → Prop) : Expr → Prop where
  | intro {e : Expr} (node : p e) (parts : ∀ part ∈ e.parts, All p part) : All p e

theorem all_iff : e.All p ↔ p e ∧ ∀ part ∈ e.parts, part.All p := by
  constructor
  · rintro ⟨hnode, hparts⟩
    exact ⟨hnode, hparts⟩
  · rintro ⟨hnode, hparts⟩
    exact .intro hnode hparts

theorem All.parts (h : e.All p) : ∀ part ∈ e.parts, part.All p :=
  (all_iff.mp h).2

theorem all_of_forall (h : ∀ e, p e) (e : Expr) : e.All p :=
  .intro (h e) fun part _ => all_of_forall h part
termination_by e
decreasing_by exact sizeOf_part ‹_›

theorem All.imp {q : Expr → Prop} (h : e.All p) (hpq : ∀ e, p e → q e) : e.All q := by
  induction h with
  | intro hnode _ ih => exact .intro (hpq _ hnode) ih

theorem All.and {q : Expr → Prop} (hp : e.All p) (hq : e.All q) : e.All fun e => p e ∧ q e := by
  induction hp with
  | intro hnode _ ih =>
      obtain ⟨hnode', hparts⟩ := all_iff.mp hq
      exact .intro ⟨hnode, hnode'⟩ fun part hpart => ih part hpart (hparts part hpart)

def ownTokens : Expr → List Token
  | .literal _ | .group _ | .sequence _ _ => []
  | .unary op _ | .binary _ op _ | .logical _ op _ | .range _ op _ _ => [op]
  | .var name => [name]
  | .assign name op _ => [name, op]
  | .call _ paren _ => [paren]

abbrev Keeps (known : Token → Prop) : Expr → Prop :=
  All fun e => ∀ t ∈ e.ownTokens, known t

end Expr

namespace Stmt

def exprs : Stmt → List Expr
  | .expr e => [e]
  | .print _ values _ | .assign _ values => values
  | .ifDo conditions _ _ => conditions
  | .unlessDo condition _ _ | .whileDo condition _ | .untilDo condition _ => [condition]
  | .forDo _ iterable _ => [iterable]
  | .caseDo subject conditions _ _ => subject :: conditions
  | .returnFrom _ value => value.toList
  | .block _ | .loopDo _ | .define _ _ _ | .breakLoop _ | .nextRound _ => []

def stmts : Stmt → List Stmt
  | .block body | .whileDo _ body | .untilDo _ body | .loopDo body | .forDo _ _ body
  | .define _ _ body => body
  | .ifDo _ branches otherwise | .caseDo _ _ branches otherwise =>
      branches.flatten ++ otherwise.getD []
  | .unlessDo _ body otherwise => body ++ otherwise.getD []
  | .expr _ | .print _ _ _ | .assign _ _ | .returnFrom _ _ | .breakLoop _ | .nextRound _ => []

variable {p : Expr → Prop} {q : Stmt → Prop} {s t : Stmt} {e : Expr}

theorem sizeOf_expr (h : e ∈ s.exprs) : sizeOf e < sizeOf s := by
  have hlist : ∀ {es : List Expr}, e ∈ es → sizeOf e < sizeOf es := List.sizeOf_lt_of_mem
  cases s <;> grind [exprs]

theorem sizeOf_stmt (h : t ∈ s.stmts) : sizeOf t < sizeOf s := by
  have hbody : ∀ {body : List Stmt}, t ∈ body → sizeOf t < sizeOf body := List.sizeOf_lt_of_mem
  have helse : ∀ {otherwise : Option (List Stmt)}, t ∈ otherwise.getD [] →
      sizeOf t < sizeOf otherwise := by
    rintro (_ | body) h
    · simp at h
    · have hlt : sizeOf t < sizeOf body := hbody h
      simp
      omega
  have hbranches : ∀ {branches : List (List Stmt)}, t ∈ branches.flatten →
      sizeOf t < sizeOf branches := by
    intro branches h
    obtain ⟨body, hbody', h⟩ := List.mem_flatten.mp h
    exact Nat.lt_trans (hbody h) (List.sizeOf_lt_of_mem hbody')
  cases s <;> grind [stmts]

inductive All (p : Expr → Prop) (q : Stmt → Prop) : Stmt → Prop where
  | intro {s : Stmt} (node : q s) (exprs : ∀ e ∈ s.exprs, e.All p)
      (stmts : ∀ t ∈ s.stmts, All p q t) : All p q s

theorem all_iff :
    s.All p q ↔ q s ∧ (∀ e ∈ s.exprs, e.All p) ∧ ∀ t ∈ s.stmts, t.All p q := by
  constructor
  · rintro ⟨hnode, hexprs, hstmts⟩
    exact ⟨hnode, hexprs, hstmts⟩
  · rintro ⟨hnode, hexprs, hstmts⟩
    exact .intro hnode hexprs hstmts

theorem All.exprs (h : s.All p q) : ∀ e ∈ s.exprs, e.All p :=
  (all_iff.mp h).2.1

theorem All.stmts (h : s.All p q) : ∀ t ∈ s.stmts, t.All p q :=
  (all_iff.mp h).2.2

theorem all_of_forall (hp : ∀ e, p e) (hq : ∀ s, q s) (s : Stmt) : s.All p q :=
  .intro (hq s) (fun e _ => Expr.all_of_forall hp e) fun t _ => all_of_forall hp hq t
termination_by s
decreasing_by exact sizeOf_stmt ‹_›

theorem All.imp {p' : Expr → Prop} {q' : Stmt → Prop} (h : s.All p q) (hp : ∀ e, p e → p' e)
    (hq : ∀ s, q s → q' s) : s.All p' q' := by
  induction h with
  | intro hnode hexprs _ ih => exact .intro (hq _ hnode) (fun e he => (hexprs e he).imp hp) ih

theorem All.and {p' : Expr → Prop} {q' : Stmt → Prop} (h : s.All p q) (h' : s.All p' q') :
    s.All (fun e => p e ∧ p' e) fun s => q s ∧ q' s := by
  induction h with
  | intro hnode hexprs _ ih =>
      obtain ⟨hnode', hexprs', hstmts'⟩ := all_iff.mp h'
      exact .intro ⟨hnode, hnode'⟩ (fun e he => (hexprs e he).and (hexprs' e he))
        fun t ht => ih t ht (hstmts' t ht)

/-! ## Conditions with their branches -/

theorem exists_arms {α β : Type} {as : List α} {bs : List β} (h : as.length = bs.length) :
    ∃ arms : List (α × β), as = arms.map Prod.fst ∧ bs = arms.map Prod.snd :=
  ⟨as.zip bs, (List.map_fst_zip (Nat.le_of_eq h)).symm,
    (List.map_snd_zip (Nat.le_of_eq h.symm)).symm⟩

@[simp] theorem zip_map_fst_snd {α β : Type} (arms : List (α × β)) :
    (arms.map Prod.fst).zip (arms.map Prod.snd) = arms := by
  simpa using List.zip_unzip arms

@[simp] theorem flatten_map_snd {α β : Type} (arms : List (α × List β)) :
    (arms.map Prod.snd).flatten = arms.flatMap Prod.snd :=
  rfl

theorem mem_of_mem_map_fst_zip {conditions : List Expr} {branches : List (List Stmt)}
    (h : e ∈ (conditions.zip branches).map Prod.fst) : e ∈ conditions := by
  obtain ⟨arm, harm, rfl⟩ := List.mem_map.mp h
  exact (List.of_mem_zip harm).1

theorem mem_of_mem_flatMap_snd_zip {conditions : List Expr} {branches : List (List Stmt)}
    (h : t ∈ (conditions.zip branches).flatMap Prod.snd) : t ∈ branches.flatten := by
  obtain ⟨arm, harm, ht⟩ := List.mem_flatMap.mp h
  exact List.mem_flatten_of_mem (List.of_mem_zip harm).2 ht

theorem zip_subset_stmts (conditions : List Expr) (branches : List (List Stmt))
    (otherwise : Option (List Stmt)) :
    (conditions.zip branches).flatMap Prod.snd ++ otherwise.getD [] ⊆
      branches.flatten ++ otherwise.getD [] := by
  intro t ht
  rw [List.mem_append] at ht ⊢
  exact ht.imp_left mem_of_mem_flatMap_snd_zip

def ArmsAll (p : Expr → Prop) (q : Stmt → Prop) (arms : List (Expr × List Stmt)) : Prop :=
  (∀ e ∈ arms.map Prod.fst, e.All p) ∧ ∀ s ∈ arms.flatMap Prod.snd, s.All p q

theorem ArmsAll.nil : ArmsAll p q [] :=
  ⟨by simp, by simp⟩

theorem ArmsAll.push {arms : Array (Expr × List Stmt)} {body : List Stmt}
    (h : ArmsAll p q arms.toList) (he : e.All p) (hbody : ∀ s ∈ body, s.All p q) :
    ArmsAll p q (arms.push (e, body)).toList := by
  obtain ⟨hconditions, hbodies⟩ := h
  constructor
  · rw [Array.toList_push, List.map_append, List.forall_mem_append]
    exact ⟨hconditions, by simpa using he⟩
  · rw [Array.toList_push, List.flatMap_append, List.forall_mem_append]
    exact ⟨hbodies, by simpa using hbody⟩

def ownTokens : Stmt → List Token
  | .print keyword _ _ | .returnFrom keyword _ | .breakLoop keyword | .nextRound keyword =>
      [keyword]
  | .assign names _ => names
  | .forDo name _ _ => [name]
  | .define name params _ => name :: params
  | .expr _ | .block _ | .ifDo _ _ _ | .unlessDo _ _ _ | .whileDo _ _ | .untilDo _ _ | .loopDo _
  | .caseDo _ _ _ _ => []

abbrev Keeps (known : Token → Prop) : Stmt → Prop :=
  All (fun e => ∀ t ∈ e.ownTokens, known t) fun s => ∀ t ∈ s.ownTokens, known t

/-- Loops whose number of rounds is not known when they start. -/
def isUnbounded : Stmt → Bool
  | .whileDo _ _ | .untilDo _ _ | .loopDo _ => true
  | _ => false

end Stmt

end Scriptlet
