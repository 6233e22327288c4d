import Scriptlet.Proofs.Grammar.RoundTrip

/-!
# Names and words of trees

In a tree that is read without an error, what has to be a name is one, calls are closed by a
parenthesis, and jumps keep the words they start with.
-/

namespace Scriptlet

open Grammar

def Expr.HasNames : Expr → Prop
  | .var name | .assign name _ _ => name.kind = .identifier
  | .call _ paren _ => paren.kind = .rightParen
  | .literal _ | .group _ | .unary _ _ | .binary _ _ _ | .logical _ _ _ | .range _ _ _ _
  | .sequence _ _ => True

def Stmt.HasNames : Stmt → Prop
  | .assign names _ => ∀ t ∈ names, t.kind = .identifier
  | .forDo name _ _ => name.kind = .identifier
  | .define name params _ => ∀ t ∈ name :: params, t.kind = .identifier
  | .returnFrom keyword _ => keyword.kind = .kwReturn
  | .breakLoop keyword => keyword.kind = .kwBreak
  | .nextRound keyword => keyword.kind = .kwNext
  | .expr _ | .print _ _ _ | .block _ | .ifDo _ _ _ | .unlessDo _ _ _ | .whileDo _ _
  | .untilDo _ _ | .loopDo _ | .caseDo _ _ _ _ => True

theorem Grammar.Derives.hasNames {p : Precedence} {ts : List Token} {e : Expr}
    (h : Derives p ts e) : e.All Expr.HasNames := by
  induction h with
  | tighter _ _ ih => exact ih
  | assign hname _ _ ih => exact .intro hname (by simpa [Expr.parts] using ih)
  | @chain p op _ _ left right _ _ _ _ ihl ihr =>
      have hparts : ∀ e ∈ [left, right], e.All Expr.HasNames := by simp [ihl, ihr]
      unfold Precedence.node
      split <;> exact .intro trivial hparts
  | power _ _ _ ihl ihr => exact .intro trivial (by simp [Expr.parts, ihl, ihr])
  | unary _ _ ih => exact .intro trivial (by simpa [Expr.parts] using ih)
  | call _ hright _ _ _ _ ihc ihp =>
      refine .intro hright (List.forall_mem_cons.mpr ⟨ihc, ?_⟩)
      simpa using fun e ts hpart => ihp (ts, e) hpart
  | literal _ => exact .intro trivial (List.forall_mem_nil _)
  | name hname => exact .intro hname (List.forall_mem_nil _)
  | group _ _ _ ih => exact .intro trivial (by simpa [Expr.parts] using ih)

namespace Stmt

private theorem forall_mem_otherwise {q : Stmt → Prop} {otherwise : Option (List Stmt)}
    (h : ∀ body, otherwise = some body → ∀ s ∈ body, q s) : ∀ s ∈ otherwise.getD [], q s := by
  cases otherwise with
  | none => exact List.forall_mem_nil _
  | some body => exact h body rfl

theorem Readable.hasNames {s : Stmt} (h : s.Readable) : s.All Expr.HasNames HasNames := by
  have hexpr : ∀ {e : Expr}, e.Readable → e.All Expr.HasNames := Derives.hasNames
  have hbranches : ∀ {branches : List (List Stmt)},
      (∀ body ∈ branches, ∀ s ∈ body, s.All Expr.HasNames HasNames) →
      ∀ s ∈ branches.flatten, s.All Expr.HasNames HasNames := by
    intro branches h s hs
    obtain ⟨body, hbody, hs⟩ := List.mem_flatten.mp hs
    exact h body hbody s hs
  induction h with
  | expr _ hvalues _ =>
      have hsequence := Expr.all_sequenceOf (p := Expr.HasNames) trivial (fun _ _ => trivial)
        fun e he => hexpr (hvalues e he)
      exact .intro trivial (by simpa [exprs] using hsequence) (List.forall_mem_nil _)
  | print _ _ hvalues =>
      exact .intro trivial (fun e he => hexpr (hvalues e he)) (List.forall_mem_nil _)
  | assign _ _ hnames hvalues =>
      exact .intro hnames (fun e he => hexpr (hvalues e he)) (List.forall_mem_nil _)
  | block _ ih => exact .intro trivial (List.forall_mem_nil _) ih
  | ifDo _ _ hconditions _ _ ih iho =>
      exact .intro trivial (fun e he => hexpr (hconditions e he))
        (List.forall_mem_append.mpr ⟨hbranches ih, forall_mem_otherwise iho⟩)
  | unlessDo hcondition _ _ ih iho =>
      refine .intro trivial (by simpa [exprs] using hexpr hcondition) ?_
      exact List.forall_mem_append.mpr ⟨ih, forall_mem_otherwise iho⟩
  | whileDo hcondition _ ih => exact .intro trivial (by simpa [exprs] using hexpr hcondition) ih
  | untilDo hcondition _ ih => exact .intro trivial (by simpa [exprs] using hexpr hcondition) ih
  | loopDo _ ih => exact .intro trivial (List.forall_mem_nil _) ih
  | forDo hname hiterable _ ih => exact .intro hname (by simpa [exprs] using hexpr hiterable) ih
  | caseDo hsubject _ _ hconditions _ _ ih iho =>
      refine .intro trivial ?_
        (List.forall_mem_append.mpr ⟨hbranches ih, forall_mem_otherwise iho⟩)
      exact List.forall_mem_cons.mpr ⟨hexpr hsubject, fun e he => hexpr (hconditions e he)⟩
  | define hname hparams _ _ ih =>
      exact .intro (List.forall_mem_cons.mpr ⟨hname, hparams⟩) (List.forall_mem_nil _) ih
  | returnFrom hkeyword hvalue =>
      refine .intro hkeyword (fun e he => ?_) (List.forall_mem_nil _)
      exact hexpr (hvalue e (Option.mem_toList.mp he))
  | breakLoop hkeyword => exact .intro hkeyword (List.forall_mem_nil _) (List.forall_mem_nil _)
  | nextRound hkeyword => exact .intro hkeyword (List.forall_mem_nil _) (List.forall_mem_nil _)

end Stmt

theorem Grammar.hasNames_of_mem_parse {tokens : List Token} {s : Stmt}
    (hend : ∃ last, tokens.getLast? = some last ∧ last.kind = .eof)
    (hclean : (parse tokens).errors = []) (h : s ∈ (parse tokens).statements) :
    s.All Expr.HasNames Stmt.HasNames := by
  cases tokens with
  | nil => cases h
  | cons first ahead =>
      obtain ⟨r', hreads⟩ := reads_of_parse (r := ⟨first, ahead, #[]⟩) hend rfl hclean
      obtain ⟨⟨_, _, _, hreadable⟩, -⟩ := hreads.of_program
      exact (hreadable s h).hasNames

end Scriptlet
