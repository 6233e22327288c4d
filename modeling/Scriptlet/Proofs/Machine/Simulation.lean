import Mathlib.Data.Option.Basic
import Scriptlet.Proofs.Value.Alike

/-!
# Simulations

A relation between actions is a simulation if it holds between the primitive actions on values that
are alike and is carried over by sequencing, by scopes and by calls.  It then holds between the run
of any program and the run of the same program with other line numbers: all constructs of the
language are built from these parts, and none looks at a line number or into a function.
-/

namespace Scriptlet

/-! ## Results that are alike -/

structure Likeness.IsReflexive (L : Likeness) : Prop where
  closure_refl (f : Closure) : L.closure f f
  line_id : L.line id

structure Likeness.IsRigid (L : Likeness) : Prop where
  closure_eq {f f' : Closure} : L.closure f f' → f' = f
  line_eq {g : Nat → Nat} : L.line g → g = id

/-- What it means for two results of one kind to be alike. -/
class Comparable (L : Likeness) (α : Type) where
  Alike : α → α → Prop
  alike_refl : L.IsReflexive → ∀ a : α, Alike a a
  eq_of_alike : L.IsRigid → ∀ {a a' : α}, Alike a a' → a' = a

inductive Flow.Alike (L : Likeness) : Flow → Flow → Prop where
  | normal : Alike L .normal .normal
  | broke {g : Nat → Nat} (line : Nat) (hg : L.line g) : Alike L (.broke line) (.broke (g line))
  | next {g : Nat → Nat} (line : Nat) (hg : L.line g) : Alike L (.next line) (.next (g line))
  | returned {v v' : Value} (h : Value.Alike L v v') : Alike L (.returned v) (.returned v')

section Results

variable {L : Likeness}

theorem Value.alike_refl (hL : L.IsReflexive) (v : Value) : Value.Alike L v v :=
  alike_self v fun f _ => hL.closure_refl f

theorem eq_of_forall₂ {α : Type} {R : α → α → Prop} (hR : ∀ a a', R a a' → a' = a)
    {as as' : List α} (h : List.Forall₂ R as as') : as' = as := by
  have heq : List.Forall₂ Eq as as' := h.imp fun a a' ha => (hR a a' ha).symm
  rw [List.forall₂_eq_eq_eq] at heq
  exact heq.symm

theorem Value.eq_of_alike (hL : L.IsRigid) {v v' : Value} (h : Value.Alike L v v') : v' = v := by
  refine h.induct (fun v hplain => rfl) (fun as bs hitems => ?_) fun f f' hf => ?_
  · rw [eq_of_forall₂ (fun _ _ h => h) hitems]
  · rw [hL.closure_eq hf]

instance : Comparable L Unit where
  Alike _ _ := True
  alike_refl _ _ := trivial
  eq_of_alike _ _ _ _ := rfl

instance : Comparable L Value where
  Alike := Value.Alike L
  alike_refl := Value.alike_refl
  eq_of_alike := Value.eq_of_alike

instance : Comparable L Flow where
  Alike := Flow.Alike L
  alike_refl hL flow := by
    cases flow with
    | normal => exact .normal
    | broke line => exact .broke line hL.line_id
    | next line => exact .next line hL.line_id
    | returned v => exact .returned (Value.alike_refl hL v)
  eq_of_alike hL := by
    rintro _ _ (_ | ⟨line, hg⟩ | ⟨line, hg⟩ | h)
    · rfl
    · rw [hL.line_eq hg, id]
    · rw [hL.line_eq hg, id]
    · rw [Value.eq_of_alike hL h]

instance {α : Type} [Comparable L α] : Comparable L (List α) where
  Alike := List.Forall₂ (Comparable.Alike L)
  alike_refl hL _ := List.forall₂_same.mpr fun a _ => Comparable.alike_refl hL a
  eq_of_alike hL _ _ := eq_of_forall₂ fun _ _ => Comparable.eq_of_alike hL

instance {α : Type} [Comparable L α] : Comparable L (Option α) where
  Alike := Option.Rel (Comparable.Alike L)
  alike_refl hL a := by
    cases a with
    | none => exact .none
    | some a => exact .some (Comparable.alike_refl hL a)
  eq_of_alike hL := by
    rintro _ _ (h | _)
    · rw [Comparable.eq_of_alike hL h]
    · rfl

theorem Flow.Alike.afterBody {flow flow' : Flow} (h : Flow.Alike L flow flow') :
    Comparable.Alike L flow.afterBody flow'.afterBody := by
  cases h with
  | normal => exact .none
  | broke line hg => exact .some .normal
  | next line hg => exact .none
  | returned h => exact .some (.returned h)

end Results

/-! ## Related actions -/

structure Simulation (L : Likeness) (settings settings' : Settings)
    (R : {α : Type} → [Comparable L α] → Run α → Run α → Prop) : Prop where
  pure {α : Type} [Comparable L α] {a a' : α} :
    Comparable.Alike L a a' → R (pure a) (pure a')
  outOfFuel {α : Type} [Comparable L α] : R (throw .outOfFuel : Run α) (throw .outOfFuel)
  failAt {α : Type} [Comparable L α] {g : Nat → Nat} (line : Nat) (failure : Failure) :
    L.line g → R (Run.failAt line failure : Run α) (Run.failAt (g line) failure)
  bind {α β : Type} [Comparable L α] [Comparable L β] {x x' : Run α} {f f' : α → Run β} :
    R x x' → (∀ a a', Comparable.Alike L a a' → R (f a) (f' a')) → R (x >>= f) (x' >>= f')
  lookup {g : Nat → Nat} (name : Token) :
    L.line g → R (Run.lookup name) (Run.lookup (name.renumber g))
  define {g : Nat → Nat} {v v' : Value} (name : Token) :
    L.line g → Value.Alike L v v' → R (Run.define name v) (Run.define (name.renumber g) v')
  assign {g : Nat → Nat} {v v' : Value} (name : Token) :
    L.line g → Value.Alike L v v' → R (Run.assign name v) (Run.assign (name.renumber g) v')
  makeClosure {g : Nat → Nat} (name : Token) (params : List Token) (body : List Stmt) :
    L.line g → R (Run.makeClosure name params body)
      (Run.makeClosure (name.renumber g) (params.map (Token.renumber g))
        (body.map (Stmt.renumber g)))
  print (text : String) : R (Run.print settings text) (Run.print settings' text)
  host {g : Nat → Nat} {args args' : List Value} (f : HostFunction) (line : Nat) :
    L.line g → List.Forall₂ (Value.Alike L) args args' →
      R (Run.callHost settings f args line) (Run.callHost settings' f args' (g line))
  inScope {α : Type} [Comparable L α] {x x' : Run α} :
    R x x' → R (Run.inScope x) (Run.inScope x')
  /-- A call is entered only where the depth of calls allows it. -/
  enterCall {g : Nat → Nat} {f f' : Closure} {x x' : Run Flow} {k k' : Flow → Run Value}
      (line : Nat) :
    L.line g → L.closure f f' → R x x' →
      (∀ flow flow', Flow.Alike L flow flow' → R (k flow) (k' flow')) →
      R (do
          if settings.maxCallDepth ≤ (← get).depth then Run.failAt line .stackTooDeep
          else Run.inCall f x >>= k)
        (do
          if settings'.maxCallDepth ≤ (← get).depth then Run.failAt (g line) .stackTooDeep
          else Run.inCall f' x' >>= k')

namespace Simulation

variable {L : Likeness} {settings settings' : Settings}
variable {R : {α : Type} → [Comparable L α] → Run α → Run α → Prop}
variable {eval eval' : Expr → Run Value} {exec exec' : Stmt → Run Flow} {g : Nat → Nat}

/-! ## Lists of parts -/

theorem ofExcept (h : Simulation L settings settings' R) (hg : L.line g) (line : Nat)
    {r r' : Except Failure Value} (hr : Value.AlikeResult L r r') :
    R (Run.ofExcept line r) (Run.ofExcept (g line) r') := by
  cases hr with
  | ok hv => exact h.pure hv
  | error failure => exact h.failAt line failure hg

theorem evaluateAll (h : Simulation L settings settings' R)
    (he : ∀ e, R (eval e) (eval' (e.renumber g))) (es : List Expr) :
    R (Run.evaluateAll eval es) (Run.evaluateAll eval' (es.map (Expr.renumber g))) := by
  induction es with
  | nil => exact h.pure .nil
  | cons e es ih =>
      exact h.bind (he e) fun v v' hv => h.bind ih fun vs vs' hvs => h.pure (.cons hv hvs)

theorem defineAll (h : Simulation L settings settings' R) (hg : L.line g) (names : List Token)
    {vs vs' : List Value} (hvs : List.Forall₂ (Value.Alike L) vs vs') :
    R (Run.defineAll (names.zip vs))
      (Run.defineAll ((names.map (Token.renumber g)).zip vs')) := by
  induction names generalizing vs vs' with
  | nil => exact h.pure trivial
  | cons name names ih =>
      cases hvs with
      | nil => exact h.pure trivial
      | cons hv hvs => exact h.bind (h.define name hg hv) fun _ _ _ => ih hvs

theorem executeAll (h : Simulation L settings settings' R)
    (hs : ∀ s, R (exec s) (exec' (s.renumber g))) (body : List Stmt) :
    R (Run.executeAll exec body) (Run.executeAll exec' (body.map (Stmt.renumber g))) := by
  induction body with
  | nil => exact h.pure .normal
  | cons s body ih =>
      refine h.bind (hs s) fun flow flow' hflow => ?_
      cases hflow with
      | normal => exact ih
      | broke line hg => exact h.pure (.broke line hg)
      | next line hg => exact h.pure (.next line hg)
      | returned hv => exact h.pure (.returned hv)

/-! ## Expressions -/

theorem callClosure (h : Simulation L settings settings' R)
    (hs : ∀ g, L.line g → ∀ s, R (exec s) (exec' (s.renumber g))) (hg : L.line g)
    {f f' : Closure} (hf : L.closure f f') {args args' : List Value}
    (hargs : List.Forall₂ (Value.Alike L) args args') (line : Nat) :
    R (Run.callClosure settings exec f args line)
      (Run.callClosure settings' exec' f' args' (g line)) := by
  refine h.enterCall line hg hf ?_ fun flow flow' hflow => ?_
  · obtain ⟨g', hg', rfl⟩ := L.of_closure hf
    exact h.inScope (h.bind (h.defineAll hg' f.params hargs) fun _ _ _ =>
      h.executeAll (hs g' hg') f.body)
  · cases hflow with
    | normal => exact h.pure (.plain rfl)
    | broke line hg => exact h.failAt line _ hg
    | next line hg => exact h.failAt line _ hg
    | returned hv => exact h.pure hv

theorem call (h : Simulation L settings settings' R)
    (hs : ∀ g, L.line g → ∀ s, R (exec s) (exec' (s.renumber g))) (hg : L.line g)
    {callee callee' : Value} (hcallee : Value.Alike L callee callee') {args args' : List Value}
    (hargs : List.Forall₂ (Value.Alike L) args args') (line : Nat) :
    R (Run.call settings exec callee args line)
      (Run.call settings' exec' callee' args' (g line)) := by
  have hlength : args'.length = args.length := hargs.length_eq.symm
  cases hcallee with
  | list => exact h.failAt line _ hg
  | closure hf =>
      obtain ⟨_, _, hf'⟩ := L.of_closure hf
      simp only [Run.call, hlength, hf', Closure.renumber, List.length_map]
      rw [← Closure.renumber, ← hf']
      split
      · exact h.callClosure hs hg hf hargs line
      · exact h.failAt line _ hg
  | plain hplain =>
      cases callee with
      | host f =>
          simp only [Run.call, hlength]
          split
          · exact h.host f line hg hargs
          · exact h.failAt line _ hg
      | closure f => cases hplain
      | _ => exact h.failAt line _ hg

theorem assignment (h : Simulation L settings settings' R) (hg : L.line g) (name op : Token)
    {v v' : Value} (hv : Value.Alike L v v') :
    R (Run.assignment name op v) (Run.assignment (name.renumber g) (op.renumber g) v') := by
  unfold Run.assignment
  rw [Token.kind_renumber]
  split
  · exact h.bind (h.define name hg hv) fun _ _ _ => h.pure hv
  · cases BinaryOp.ofCompound? op.kind with
    | none => exact h.failAt op.line _ hg
    | some binary =>
        refine h.bind (h.lookup name hg) fun old old' hold => ?_
        refine h.bind (h.ofExcept hg op.line (Value.alike_binary binary hold hv))
          fun new new' hnew => ?_
        exact h.bind (h.assign name hg hnew) fun _ _ _ => h.pure hnew

theorem evaluateWith (h : Simulation L settings settings' R)
    (he : ∀ e, R (eval e) (eval' (e.renumber g)))
    (hs : ∀ g, L.line g → ∀ s, R (exec s) (exec' (s.renumber g))) (hg : L.line g) (e : Expr) :
    R (Run.evaluateWith settings eval exec e)
      (Run.evaluateWith settings' eval' exec' (e.renumber g)) := by
  cases e with
  | literal value => exact h.pure (.plain (Value.isPlain_ofLiteral value))
  | group inner => exact he inner
  | unary op operand =>
      refine h.bind (he operand) fun v v' hv => ?_
      rw [Token.kind_renumber]
      cases UnaryOp.ofKind? op.kind with
      | none => exact h.failAt op.line _ hg
      | some unary => exact h.ofExcept hg op.line (Value.alike_unary unary hv)
  | binary left op right =>
      refine h.bind (he left) fun l l' hl => h.bind (he right) fun r r' hr => ?_
      rw [Token.kind_renumber]
      cases BinaryOp.ofKind? op.kind with
      | none => exact h.failAt op.line _ hg
      | some binary => exact h.ofExcept hg op.line (Value.alike_binary binary hl hr)
  | logical left op right =>
      refine h.bind (he left) fun l l' hl => ?_
      have hdecides : Run.decides (op.renumber g) l' = Run.decides op l := by
        simp only [Run.decides, Token.kind_renumber, Value.isTruthy_of_alike hl]
      rw [hdecides]
      split
      · exact h.pure hl
      · exact he right
  | range left op right inclusive =>
      exact h.bind (he left) fun l l' hl => h.bind (he right) fun r r' hr =>
        h.ofExcept hg op.line (Value.alike_range inclusive hl hr)
  | var name => exact h.lookup name hg
  | assign name op value => exact h.bind (he value) fun v v' hv => h.assignment hg name op hv
  | call callee paren arguments =>
      simp only [Expr.renumber, Expr.renumberEach_eq]
      refine h.bind (he callee) fun f f' hf => ?_
      exact h.bind (h.evaluateAll he arguments) fun args args' hargs =>
        h.call hs hg hf hargs paren.line
  | sequence left right => exact h.bind (he left) fun _ _ _ => he right

/-! ## Statements -/

theorem loop (h : Simulation L settings settings' R) {round round' : Run (Option Flow)}
    (hr : R round round') (fuel : Nat) : R (Run.loop round fuel) (Run.loop round' fuel) := by
  induction fuel with
  | zero => exact h.outOfFuel
  | succ fuel ih =>
      refine h.bind hr fun ending ending' hending => ?_
      cases hending with
      | none => exact ih
      | some hflow => exact h.pure hflow

theorem conditionalRound (h : Simulation L settings settings' R)
    (he : ∀ e, R (eval e) (eval' (e.renumber g))) (hs : ∀ s, R (exec s) (exec' (s.renumber g)))
    (wanted : Bool) (condition : Expr) (body : List Stmt) :
    R (Run.conditionalRound eval exec wanted condition body)
      (Run.conditionalRound eval' exec' wanted (condition.renumber g)
        (body.map (Stmt.renumber g))) := by
  refine h.bind (he condition) fun v v' hv => ?_
  rw [Value.isTruthy_of_alike hv]
  split
  · exact h.bind (h.inScope (h.executeAll hs body)) fun flow flow' hflow =>
      h.pure (Flow.Alike.afterBody hflow)
  · exact h.pure (.some .normal)

theorem forEach (h : Simulation L settings settings' R)
    (hs : ∀ s, R (exec s) (exec' (s.renumber g))) (hg : L.line g) (name : Token)
    (body : List Stmt) {items items' : List Value}
    (hitems : List.Forall₂ (Value.Alike L) items items') :
    R (Run.forEach exec name body items)
      (Run.forEach exec' (name.renumber g) (body.map (Stmt.renumber g)) items') := by
  induction hitems with
  | nil => exact h.pure .normal
  | cons hitem _ ih =>
      refine h.bind (h.inScope (h.bind (h.define name hg hitem) fun _ _ _ =>
        h.executeAll hs body)) fun flow flow' hflow => ?_
      have hafter := Flow.Alike.afterBody hflow
      revert hafter
      generalize flow.afterBody = ending, flow'.afterBody = ending'
      rintro (hflow | _)
      · exact h.pure hflow
      · exact ih

theorem printAll (h : Simulation L settings settings' R)
    (he : ∀ e, R (eval e) (eval' (e.renumber g))) (ending : String) (es : List Expr) :
    R (Run.printAll settings eval ending es)
      (Run.printAll settings' eval' ending (es.map (Expr.renumber g))) := by
  induction es with
  | nil => exact h.pure trivial
  | cons e es ih =>
      refine h.bind (he e) fun v v' hv => ?_
      rw [Value.display_of_alike hv]
      exact h.bind (h.print _) fun _ _ _ => ih

theorem printStatement (h : Simulation L settings settings' R)
    (he : ∀ e, R (eval e) (eval' (e.renumber g))) (values : List Expr) (newline : Bool) :
    R (Run.printStatement settings eval values newline)
      (Run.printStatement settings' eval' (values.map (Expr.renumber g)) newline) := by
  unfold Run.printStatement
  rw [List.isEmpty_map]
  split
  · exact h.print "\n"
  · exact h.printAll he _ values

theorem orElse (h : Simulation L settings settings' R)
    (hs : ∀ s, R (exec s) (exec' (s.renumber g))) (otherwise : Option (List Stmt)) :
    R (Run.orElse exec otherwise)
      (Run.orElse exec' (otherwise.map (List.map (Stmt.renumber g)))) := by
  cases otherwise with
  | none => exact h.pure .normal
  | some body => exact h.executeAll hs body

theorem firstTrue (h : Simulation L settings settings' R)
    (he : ∀ e, R (eval e) (eval' (e.renumber g))) (hs : ∀ s, R (exec s) (exec' (s.renumber g)))
    (otherwise : Option (List Stmt)) (arms : List (Expr × List Stmt)) :
    R (Run.firstTrue eval exec otherwise arms)
      (Run.firstTrue eval' exec' (otherwise.map (List.map (Stmt.renumber g)))
        (arms.map fun arm => (arm.1.renumber g, arm.2.map (Stmt.renumber g)))) := by
  induction arms with
  | nil => exact h.orElse hs otherwise
  | cons arm arms ih =>
      refine h.bind (he arm.1) fun v v' hv => ?_
      rw [Value.isTruthy_of_alike hv]
      split
      · exact h.executeAll hs arm.2
      · exact ih

theorem firstMatch (h : Simulation L settings settings' R)
    (he : ∀ e, R (eval e) (eval' (e.renumber g))) (hs : ∀ s, R (exec s) (exec' (s.renumber g)))
    (otherwise : Option (List Stmt)) {subject subject' : Value}
    (hsubject : Value.Alike L subject subject') (arms : List (Expr × List Stmt)) :
    R (Run.firstMatch eval exec otherwise subject arms)
      (Run.firstMatch eval' exec' (otherwise.map (List.map (Stmt.renumber g))) subject'
        (arms.map fun arm => (arm.1.renumber g, arm.2.map (Stmt.renumber g)))) := by
  induction arms with
  | nil => exact h.orElse hs otherwise
  | cons arm arms ih =>
      refine h.bind (he arm.1) fun v v' hv => ?_
      rw [Value.caseMatches_of_alike hsubject hv]
      split
      · exact h.executeAll hs arm.2
      · exact ih

theorem executeWith (h : Simulation L settings settings' R)
    (he : ∀ e, R (eval e) (eval' (e.renumber g))) (hs : ∀ s, R (exec s) (exec' (s.renumber g)))
    (hg : L.line g) (fuel : Nat) (s : Stmt) :
    R (Run.executeWith settings fuel eval exec s)
      (Run.executeWith settings' fuel eval' exec' (s.renumber g)) := by
  cases s with
  | expr e => exact h.bind (he e) fun _ _ _ => h.pure .normal
  | print keyword values newline =>
      exact h.bind (h.printStatement he values newline) fun _ _ _ => h.pure .normal
  | assign names values =>
      refine h.bind (h.evaluateAll he values) fun vs vs' hvs => ?_
      exact h.bind (h.defineAll hg names hvs) fun _ _ _ => h.pure .normal
  | block body =>
      rw [Stmt.renumber, Stmt.renumberAll_eq]
      exact h.inScope (h.executeAll hs body)
  | ifDo conditions branches otherwise =>
      rw [Stmt.renumber, Stmt.renumberBranches_eq, Stmt.renumberElse_eq, Run.executeWith,
        Run.executeWith, List.zip_map]
      exact h.firstTrue he hs otherwise (conditions.zip branches)
  | unlessDo condition body otherwise =>
      rw [Stmt.renumber, Stmt.renumberAll_eq, Stmt.renumberElse_eq]
      refine h.bind (he condition) fun v v' hv => ?_
      rw [Value.isTruthy_of_alike hv]
      split
      · exact h.orElse hs otherwise
      · exact h.executeAll hs body
  | whileDo condition body =>
      rw [Stmt.renumber, Stmt.renumberAll_eq]
      exact h.loop (h.conditionalRound he hs true condition body) fuel
  | untilDo condition body =>
      rw [Stmt.renumber, Stmt.renumberAll_eq]
      exact h.loop (h.conditionalRound he hs false condition body) fuel
  | loopDo body =>
      rw [Stmt.renumber, Stmt.renumberAll_eq]
      refine h.inScope (h.loop ?_ fuel)
      simp only [map_eq_pure_bind]
      exact h.bind (h.executeAll hs body) fun flow flow' hflow =>
        h.pure (Flow.Alike.afterBody hflow)
  | forDo name iterable body =>
      rw [Stmt.renumber, Stmt.renumberAll_eq]
      refine h.bind (he iterable) fun v v' hv => ?_
      cases hv with
      | list hitems => exact h.forEach hs hg name body hitems
      | closure hf => exact h.failAt name.line _ hg
      | plain hplain =>
          cases v with
          | list items => cases hplain
          | _ => exact h.failAt name.line _ hg
  | caseDo subject conditions branches otherwise =>
      rw [Stmt.renumber, Stmt.renumberBranches_eq, Stmt.renumberElse_eq, Run.executeWith,
        Run.executeWith, List.zip_map]
      exact h.bind (he subject) fun v v' hv =>
        h.firstMatch he hs otherwise hv (conditions.zip branches)
  | define name params body =>
      rw [Stmt.renumber, Stmt.renumberAll_eq]
      refine h.bind (h.makeClosure name params body hg) fun f f' hf => ?_
      exact h.bind (h.define name hg hf) fun _ _ _ => h.pure .normal
  | returnFrom keyword value =>
      cases value with
      | none => exact h.pure (.returned (.plain rfl))
      | some e => exact h.bind (he e) fun v v' hv => h.pure (.returned hv)
  | breakLoop keyword => exact h.pure (.broke keyword.line hg)
  | nextRound keyword => exact h.pure (.next keyword.line hg)

/-! ## Whole runs -/

theorem evaluate_execute (h : Simulation L settings settings' R) (fuel : Nat)
    {g : Nat → Nat} (hg : L.line g) :
    (∀ e, R (Run.evaluate settings fuel e) (Run.evaluate settings' fuel (e.renumber g))) ∧
      ∀ s, R (Run.execute settings fuel s) (Run.execute settings' fuel (s.renumber g)) := by
  induction fuel generalizing g with
  | zero => exact ⟨fun _ => h.outOfFuel, fun _ => h.outOfFuel⟩
  | succ fuel ih =>
      exact ⟨fun e => h.evaluateWith (ih hg).1 (fun _ hg => (ih hg).2) hg e,
        fun s => h.executeWith (ih hg).1 (ih hg).2 hg fuel s⟩

theorem execute (h : Simulation L settings settings' R) (fuel : Nat) (hg : L.line g) (s : Stmt) :
    R (Run.execute settings fuel s) (Run.execute settings' fuel (s.renumber g)) :=
  (h.evaluate_execute fuel hg).2 s

theorem interpretWith (h : Simulation L settings settings' R) {exec exec' : Stmt → Run Flow}
    (hs : ∀ s, R (exec s) (exec' (s.renumber g))) (program : List Stmt) :
    R (Run.interpretWith exec program)
      (Run.interpretWith exec' (program.map (Stmt.renumber g))) := by
  induction program with
  | nil => exact h.pure trivial
  | cons s program ih =>
      refine h.bind (hs s) fun flow flow' hflow => ?_
      cases hflow with
      | normal => exact ih
      | broke line hg => exact h.failAt line _ hg
      | next line hg => exact h.failAt line _ hg
      | returned hv => exact h.pure trivial

theorem interpret (h : Simulation L settings settings' R) (fuel : Nat) (hg : L.line g)
    (program : List Stmt) :
    R (Run.interpret settings fuel program)
      (Run.interpret settings' fuel (program.map (Stmt.renumber g))) :=
  h.interpretWith (h.execute fuel hg) program

end Simulation

end Scriptlet
