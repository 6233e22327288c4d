import Scriptlet.Proofs.Grammar.Names
import Scriptlet.Proofs.Grammar.OriginStmt
import Scriptlet.Proofs.Grammar.Shape
import Scriptlet.Proofs.Number.Decimal
import Scriptlet.Proofs.Source.Words
import Scriptlet.Proofs.Tree.Listing

/-!
# Legible trees

The listing of a tree can be told apart from all others if its tokens are known by their spelling,
have the kinds that their places ask for, and no part of it is a float, whose digits need not tell
it.  The form of such a tree is plain.
-/

namespace Scriptlet

open Source Text

/-! ## Nodes -/

def Kind.isOperation (k : Kind) : Bool :=
  (UnaryOp.ofKind? k).isSome || (BinaryOp.ofKind? k).isSome || (BinaryOp.ofCompound? k).isSome ||
    [Kind.equal, .kwAnd, .kwOr, .dotDot, .dotDotDot].contains k

def Expr.operator? : Expr → Option Token
  | .unary op _ | .binary _ op _ | .logical _ op _ | .range _ op _ _ | .assign _ op _ => some op
  | .literal _ | .group _ | .var _ | .call _ _ _ | .sequence _ _ => none

def Expr.NotFloat (e : Expr) : Prop :=
  ∀ x, e ≠ .literal (.float x)

abbrev Stmt.FloatFree : Stmt → Prop :=
  All Expr.NotFloat fun _ => True

/-- The form of the node tells which node it is. -/
structure Expr.Legible (e : Expr) : Prop where
  shape : e.HasShape
  names : e.HasNames
  notFloat : e.NotFloat
  spelled : ∀ t ∈ e.ownTokens, t.IsSpelled

structure Stmt.Legible (s : Stmt) : Prop where
  shape : s.HasShape
  names : s.HasNames
  spelled : ∀ t ∈ s.ownTokens, t.IsSpelled

theorem Kind.isSpelled_of_isOperation {k : Kind} (h : k.isOperation) :
    k.isSpelled ∧ k ∉ [.leftParen, .rightParen] := by
  revert h
  cases k <;> decide

theorem Expr.HasShape.isOperation {e : Expr} (h : e.HasShape) {op : Token}
    (hop : e.operator? = some op) : op.kind.isOperation := by
  unfold Kind.isOperation
  cases e <;> cases hop
  case unary | binary => simp_all [HasShape]
  case range => rcases h.1 with hkind | hkind <;> simp [hkind]
  case logical | assign => rcases h with hkind | hkind <;> simp [hkind]

theorem Expr.isSpelled_ownTokens {e : Expr} (hshape : e.HasShape) (hnames : e.HasNames) :
    ∀ t ∈ e.ownTokens, t.kind.isSpelled := by
  have hoperator : ∀ op, e.operator? = some op → op.kind.isSpelled :=
    fun op hop => (Kind.isSpelled_of_isOperation (hshape.isOperation hop)).1
  cases e <;> simp_all [ownTokens, operator?, HasNames, Kind.isSpelled]

theorem Stmt.isSpelled_ownTokens {s : Stmt} (hshape : s.HasShape) (hnames : s.HasNames) :
    ∀ t ∈ s.ownTokens, t.kind.isSpelled ∧ t.kind ∉ [.leftParen, .rightParen] := by
  cases s with
  | print keyword values newline =>
      rcases hshape.1 with hkind | hkind <;> simp [ownTokens, hkind] <;> decide
  | assign names values =>
      intro t ht
      rw [hnames t ht]
      decide
  | _ => simp_all [ownTokens, HasNames, Kind.isSpelled]

/-! ## Plain forms -/

theorem Token.IsSpelled.isPlain {t : Token} (h : t.IsSpelled)
    (hkind : t.kind ∉ [.leftParen, .rightParen]) : t.sexp.IsPlain :=
  .word (h.isWord hkind)

theorem isPlain_atom {word : String} (h : word ∈ ["group", "call", ",", "expr", "=", "block", "if",
    "then", "else", "unless", "while", "until", "loop", "for", "case", "when", "def", "return",
    "break", "next"]) : (atom word).IsPlain := by
  apply Sexp.IsPlain.word
  revert word
  decide

namespace Expr

theorem isPlain_literal (value : Literal) (h : (literal value).NotFloat) : value.sexp.IsPlain := by
  cases value with
  | nil => exact .word (by decide)
  | bool b => cases b <;> exact .word (by decide)
  | int n =>
      refine .word ⟨toList_toString_int_ne_nil n.toInt, fun c hc hdelimiter => ?_⟩
      have hall : Sexp.delimiters.all fun d => !d.isDigit && d != '-' := by decide
      have hother : ∀ d ∈ Sexp.delimiters, d.isDigit = false ∧ d ≠ '-' := by simpa using hall
      rcases mem_toString_int hc with hdigit | hsign
      · rw [(hother c hdelimiter).1] at hdigit
        cases hdigit
      · exact (hother c hdelimiter).2 hsign
  | float x => exact absurd rfl (h x)
  | str s => exact .quoted s.toList

theorem isPlain_sexp {e : Expr} (h : e.All Legible) : e.sexp.IsPlain := by
  induction h with
  | @intro e hnode _ ih =>
      obtain ⟨hshape, hnames, hfloat, hspelled⟩ := hnode
      have hoperator : ∀ op, e.operator? = some op → op ∈ e.ownTokens → op.sexp.IsPlain :=
        fun op hop hown => (hspelled op hown).isPlain
          (Kind.isSpelled_of_isOperation (hshape.isOperation hop)).2
      have hname : ∀ name : Token, name.kind = .identifier → name ∈ e.ownTokens →
          name.sexp.IsPlain :=
        fun name hkind hown => (hspelled name hown).isPlain (by simp [hkind])
      cases e with
      | literal value => exact isPlain_literal value hfloat
      | var name => exact hname name hnames (by simp [ownTokens])
      | _ =>
          simp_all [sexp, parts, operator?, ownTokens, HasNames, Sexp.isPlain_group, isPlain_atom]

end Expr

namespace Stmt

section Parts

variable {conditions : List Expr} {branches : List (List Stmt)} {otherwise : Option (List Stmt)}

theorem isPlain_thenSexps (hconditions : ∀ e ∈ conditions, e.sexp.IsPlain)
    (hbodies : ∀ s ∈ branches.flatten, s.sexp.IsPlain) :
    ∀ form ∈ thenSexps conditions branches, form.IsPlain := by
  induction conditions generalizing branches with
  | nil => simp [thenSexps]
  | cons condition conditions ih =>
      cases branches with
      | nil => simp [thenSexps]
      | cons body branches =>
          rw [List.flatten_cons, List.forall_mem_append] at hbodies
          rw [List.forall_mem_cons] at hconditions
          have hrest := ih hconditions.2 hbodies.2
          simp_all [thenSexps, Sexp.isPlain_group, isPlain_atom]

theorem isPlain_whenSexps (hconditions : ∀ e ∈ conditions, e.sexp.IsPlain)
    (hbodies : ∀ s ∈ branches.flatten, s.sexp.IsPlain) :
    ∀ form ∈ whenSexps conditions branches, form.IsPlain := by
  induction conditions generalizing branches with
  | nil => simp [whenSexps]
  | cons condition conditions ih =>
      cases branches with
      | nil => simp [whenSexps]
      | cons body branches =>
          rw [List.flatten_cons, List.forall_mem_append] at hbodies
          rw [List.forall_mem_cons] at hconditions
          have hrest := ih hconditions.2 hbodies.2
          simp_all [whenSexps, Sexp.isPlain_group, isPlain_atom]

theorem isPlain_elseSexps (hbody : ∀ s ∈ otherwise.getD [], s.sexp.IsPlain) :
    ∀ form ∈ elseSexps otherwise, form.IsPlain := by
  cases otherwise with
  | none => nofun
  | some body => simp_all [Sexp.isPlain_group, isPlain_atom]

end Parts

theorem isPlain_sexp {s : Stmt} (h : s.All Expr.Legible Legible) : s.sexp.IsPlain := by
  induction h with
  | @intro s hnode hexprs _ ih =>
      have hexpr : ∀ e ∈ s.exprs, e.sexp.IsPlain := fun e he => Expr.isPlain_sexp (hexprs e he)
      have htoken : ∀ t ∈ s.ownTokens, t.sexp.IsPlain := by
        intro t ht
        have hkind := (isSpelled_ownTokens hnode.shape hnode.names t ht).2
        exact (hnode.spelled t ht).isPlain hkind
      clear hexprs hnode
      cases s with
      | assign names values =>
          rw [sexp, Sexp.isPlain_group, Expr.sexps_eq]
          simp only [List.forall_mem_cons, Sexp.isPlain_group, List.forall_mem_map]
          exact ⟨isPlain_atom (by simp), htoken, hexpr⟩
      | ifDo conditions branches otherwise =>
          obtain ⟨hbranches, helse⟩ := List.forall_mem_append.mp ih
          rw [sexp, Sexp.isPlain_group, List.forall_mem_append, List.forall_mem_cons]
          exact ⟨⟨isPlain_atom (by simp), isPlain_thenSexps hexpr hbranches⟩,
            isPlain_elseSexps helse⟩
      | unlessDo condition body otherwise =>
          obtain ⟨hbody, helse⟩ := List.forall_mem_append.mp ih
          have hthen := isPlain_elseSexps helse
          simp_all [sexp, exprs, Sexp.isPlain_group, isPlain_atom]
      | caseDo subject conditions branches otherwise =>
          obtain ⟨hbranches, helse⟩ := List.forall_mem_append.mp ih
          obtain ⟨hsubject, hconditions⟩ := List.forall_mem_cons.mp hexpr
          rw [sexp, Sexp.isPlain_group, List.forall_mem_append, List.forall_mem_cons,
            List.forall_mem_cons]
          exact ⟨⟨isPlain_atom (by simp), hsubject, isPlain_whenSexps hconditions hbranches⟩,
            isPlain_elseSexps helse⟩
      | returnFrom keyword value =>
          cases value <;> simp_all [sexp, exprs, Sexp.isPlain_group, isPlain_atom]
      | _ => simp_all [sexp, exprs, stmts, ownTokens, Sexp.isPlain_group, isPlain_atom]

end Stmt

/-! ## Trees of a text -/

theorem Grammar.legible_of_mem_parse {source : String} {s : Stmt}
    (hclean : (parse (lex source).tokens).errors = [])
    (hs : s ∈ (parse (lex source).tokens).statements) (hfloat : s.FloatFree) :
    s.All Expr.Legible Stmt.Legible := by
  have hend : ∃ last, (lex source).tokens.getLast? = some last ∧ last.kind = .eof :=
    ⟨Token.eof (1 + newlineBytes source), by simp [tokens_lex], rfl⟩
  have hnames := hasNames_of_mem_parse hend hclean hs
  have hkeeps := (parse_keeps (lex source).tokens).1 s hs
  refine (((wellShaped_of_mem_parse hs).and hnames).and (hfloat.and hkeeps)).imp ?_ ?_
  · rintro e ⟨⟨hshape, hnames⟩, hfloat, htokens⟩
    refine ⟨hshape, hnames, hfloat, fun t ht => isSpelled_of_mem_tokens (htokens t ht) ?_⟩
    exact Expr.isSpelled_ownTokens hshape hnames t ht
  · rintro s ⟨⟨hshape, hnames⟩, -, htokens⟩
    refine ⟨hshape, hnames, fun t ht => isSpelled_of_mem_tokens (htokens t ht) ?_⟩
    exact (Stmt.isSpelled_ownTokens hshape hnames t ht).1

end Scriptlet
