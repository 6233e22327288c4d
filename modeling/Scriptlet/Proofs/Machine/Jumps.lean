import Scriptlet.Machine.Eval
import Scriptlet.Proofs.Tree.Jumps

/-!
# Where jumps come from

A statement ends in a jump only if a jump stands in it that it lets out.  This needs no knowledge of
the machine: the flow that a construct ends with is the flow of one of its parts, or no jump at all.
-/

namespace Scriptlet

namespace Flow

def jumpError? : Flow → Option RuntimeError
  | .broke line => some ⟨.invalidBreak, line⟩
  | .next line => some ⟨.invalidNext, line⟩
  | .normal | .returned _ => none

/-- If the flow is a jump, one of the statements lets it out. -/
def ComesFrom (flow : Flow) (body : List Stmt) : Prop :=
  ∀ e, flow.jumpError? = some e → ∃ s ∈ body, s.LetsOut e

variable {flow : Flow} {body : List Stmt} {s : Stmt}

theorem comesFrom_of_jumpError? (h : flow.jumpError? = none) (body : List Stmt) :
    flow.ComesFrom body := by
  intro e he
  rw [h] at he
  cases he

theorem ComesFrom.mono {body' : List Stmt} (h : flow.ComesFrom body) (hle : body ⊆ body') :
    flow.ComesFrom body' := by
  intro e he
  obtain ⟨s, hs, hout⟩ := h e he
  exact ⟨s, hle hs, hout⟩

theorem ComesFrom.part (hloop : s.isLoop = false) (hdefinition : s.isDefinition = false)
    (h : flow.ComesFrom s.stmts) : flow.ComesFrom [s] := by
  intro e he
  obtain ⟨t, ht, hout⟩ := h e he
  exact ⟨s, List.mem_singleton_self s, .part hloop hdefinition ht hout⟩

theorem jumpError?_of_afterBody {flow' : Flow} (h : flow.afterBody = some flow') :
    flow'.jumpError? = none := by
  cases flow <;> cases h <;> rfl

end Flow

namespace Run

def Yields {α : Type} (x : Run α) (P : α → Prop) : Prop :=
  ∀ m a m', x m = .ok a m' → P a

namespace Yields

variable {α β : Type} {P : α → Prop} {Q : β → Prop} {x : Run α}

theorem pure {a : α} (h : P a) : Yields (Pure.pure a : Run α) P := by
  rintro m _ m' ⟨⟩
  exact h

theorem mono {P' : α → Prop} (h : Yields x P) (hle : ∀ a, P a → P' a) : Yields x P' :=
  fun m a m' hrun => hle a (h m a m' hrun)

theorem throw (halt : Halt) : Yields (MonadExcept.throw halt : Run α) P := by
  rintro m a m' ⟨⟩

theorem bind {y : Run β} {f : β → Run α} (hy : Yields y Q) (hf : ∀ b, Q b → Yields (f b) P) :
    Yields (y >>= f) P := by
  intro m a m' h
  simp only [Bind.bind, EStateM.bind] at h
  cases hrun : y m with
  | error halt m₁ => simp [hrun] at h
  | ok b m₁ =>
      simp only [hrun] at h
      exact hf b (hy m b m₁ hrun) m₁ a m' h

theorem bind_any {y : Run β} {f : β → Run α} (hf : ∀ b, Yields (f b) P) : Yields (y >>= f) P :=
  bind (Q := fun _ => True) (fun _ _ _ _ => trivial) fun b _ => hf b

theorem inScope (h : Yields x P) : Yields (inScope x) P := by
  intro m a m' hrun
  unfold Run.inScope at hrun
  cases hx : x m.pushScope with
  | error halt m₁ => simp [hx] at hrun
  | ok b m₁ =>
      simp only [hx] at hrun
      cases hrun
      exact h _ _ _ hx

theorem inCall {f : Closure} (h : Yields x P) : Yields (inCall f x) P := by
  intro m a m' hrun
  unfold Run.inCall at hrun
  cases hx : x (m.enterCall f) with
  | error halt m₁ => simp [hx] at hrun
  | ok b m₁ =>
      simp only [hx] at hrun
      cases hrun
      exact h _ _ _ hx

end Yields

/-! ## Loops -/

section Loops

variable {settings : Settings} {eval : Expr → Run Value} {exec : Stmt → Run Flow}

theorem yields_afterBody (x : Run Flow) :
    Yields (x >>= fun flow => Pure.pure flow.afterBody)
      fun ending => ∀ flow ∈ ending, flow.jumpError? = none :=
  .bind_any fun _ => .pure fun _ hending => Flow.jumpError?_of_afterBody hending

theorem yields_conditionalRound (wanted : Bool) (condition : Expr) (body : List Stmt) :
    Yields (conditionalRound eval exec wanted condition body)
      fun ending => ∀ flow ∈ ending, flow.jumpError? = none := by
  refine .bind_any fun v => ?_
  split
  · exact yields_afterBody _
  · refine .pure ?_
    rintro _ ⟨⟩
    rfl

theorem yields_loop {round : Run (Option Flow)}
    (hround : Yields round fun ending => ∀ flow ∈ ending, flow.jumpError? = none) (fuel : Nat) :
    Yields (loop round fuel) (·.jumpError? = none) := by
  induction fuel with
  | zero => exact .throw .outOfFuel
  | succ fuel ih =>
      refine .bind hround fun ending hending => ?_
      cases ending with
      | none => exact ih
      | some flow => exact .pure (hending flow rfl)

theorem yields_forEach (name : Token) (body : List Stmt) (items : List Value) :
    Yields (forEach exec name body items) (·.jumpError? = none) := by
  induction items with
  | nil => exact .pure rfl
  | cons item items ih =>
      refine .bind_any fun flow => ?_
      cases hending : flow.afterBody with
      | none => exact ih
      | some flow' => exact .pure (Flow.jumpError?_of_afterBody hending)

end Loops

/-! ## Statements -/

def JumpsOut (exec : Stmt → Run Flow) : Prop :=
  ∀ s, Yields (exec s) (·.ComesFrom [s])

namespace JumpsOut

variable {settings : Settings} {eval : Expr → Run Value} {exec : Stmt → Run Flow}
variable (h : JumpsOut exec)
include h

theorem executeAll (body : List Stmt) : Yields (executeAll exec body) (·.ComesFrom body) := by
  induction body with
  | nil => exact .pure (Flow.comesFrom_of_jumpError? rfl [])
  | cons s rest ih =>
      refine .bind (h s) fun flow hflow => ?_
      have hstops : flow.ComesFrom (s :: rest) := hflow.mono (by simp)
      cases flow with
      | normal => exact ih.mono fun _ hflow => hflow.mono (List.subset_cons_self s rest)
      | _ => exact .pure hstops

theorem orElse (otherwise : Option (List Stmt)) :
    Yields (orElse exec otherwise) (·.ComesFrom (otherwise.getD [])) := by
  cases otherwise with
  | none => exact .pure (Flow.comesFrom_of_jumpError? rfl [])
  | some body => exact h.executeAll body

theorem arm (taken : Value → Bool) (condition : Expr) (body : List Stmt) {others : Run Flow}
    {rest : List Stmt} (hothers : Yields others (·.ComesFrom rest)) :
    Yields (eval condition >>= fun v => if taken v then Run.executeAll exec body else others)
      (·.ComesFrom (body ++ rest)) := by
  refine .bind_any fun v => ?_
  split
  · exact (h.executeAll body).mono fun _ hflow => hflow.mono (List.subset_append_left body rest)
  · exact hothers.mono fun _ hflow => hflow.mono (List.subset_append_right body rest)

theorem firstTrue (otherwise : Option (List Stmt)) (arms : List (Expr × List Stmt)) :
    Yields (firstTrue eval exec otherwise arms)
      (·.ComesFrom (arms.flatMap Prod.snd ++ otherwise.getD [])) := by
  induction arms with
  | nil => exact h.orElse otherwise
  | cons arm arms ih =>
      rw [List.flatMap_cons, List.append_assoc]
      exact h.arm Value.isTruthy arm.1 arm.2 ih

theorem firstMatch (otherwise : Option (List Stmt)) (subject : Value)
    (arms : List (Expr × List Stmt)) :
    Yields (firstMatch eval exec otherwise subject arms)
      (·.ComesFrom (arms.flatMap Prod.snd ++ otherwise.getD [])) := by
  induction arms with
  | nil => exact h.orElse otherwise
  | cons arm arms ih =>
      rw [List.flatMap_cons, List.append_assoc]
      exact h.arm (caseMatches subject) arm.1 arm.2 ih

theorem executeWith (fuel : Nat) : JumpsOut (executeWith settings fuel eval exec) := by
  intro s
  -- what catches all jumps, or has none to let out
  have hnone : ∀ {x : Run Flow}, Yields x (·.jumpError? = none) → Yields x (·.ComesFrom [s]) :=
    fun hx => hx.mono fun _ hflow => Flow.comesFrom_of_jumpError? hflow [s]
  -- what ends as one of its parts does
  have hpart : s.isLoop = false → s.isDefinition = false → ∀ {x : Run Flow},
      Yields x (·.ComesFrom s.stmts) → Yields x (·.ComesFrom [s]) :=
    fun hloop hdefinition _ hx => hx.mono fun _ hflow => hflow.part hloop hdefinition
  cases s with
  | expr e => exact hnone (.bind_any fun _ => .pure rfl)
  | print keyword values newline => exact hnone (.bind_any fun _ => .pure rfl)
  | assign names values => exact hnone (.bind_any fun _ => .bind_any fun _ => .pure rfl)
  | block body => exact hpart rfl rfl (.inScope (h.executeAll body))
  | ifDo conditions branches otherwise =>
      exact hpart rfl rfl ((h.firstTrue otherwise (conditions.zip branches)).mono fun _ hflow =>
        hflow.mono (Stmt.zip_subset_stmts conditions branches otherwise))
  | unlessDo condition body otherwise =>
      refine hpart rfl rfl (.bind_any fun v => ?_)
      split
      · exact (h.orElse otherwise).mono fun _ hflow =>
          hflow.mono (List.subset_append_right body _)
      · exact (h.executeAll body).mono fun _ hflow => hflow.mono (List.subset_append_left body _)
  | whileDo condition body =>
      exact hnone (yields_loop (yields_conditionalRound true condition body) fuel)
  | untilDo condition body =>
      exact hnone (yields_loop (yields_conditionalRound false condition body) fuel)
  | loopDo body =>
      refine hnone (.inScope (yields_loop ?_ fuel))
      rw [map_eq_pure_bind]
      exact yields_afterBody _
  | forDo name iterable body =>
      refine hnone (.bind_any fun v => ?_)
      cases v with
      | list items => exact yields_forEach name body items
      | _ => exact .throw _
  | caseDo subject conditions branches otherwise =>
      exact hpart rfl rfl (.bind_any fun v =>
        (h.firstMatch otherwise v (conditions.zip branches)).mono fun _ hflow =>
          hflow.mono (Stmt.zip_subset_stmts conditions branches otherwise))
  | define name params body => exact hnone (.bind_any fun _ => .bind_any fun _ => .pure rfl)
  | returnFrom keyword value =>
      cases value with
      | none => exact hnone (.pure rfl)
      | some e => exact hnone (.bind_any fun _ => .pure rfl)
  | breakLoop keyword =>
      refine .pure fun e he => ⟨_, List.mem_singleton_self _, .jump he⟩
  | nextRound keyword =>
      refine .pure fun e he => ⟨_, List.mem_singleton_self _, .jump he⟩

theorem body (f : Closure) (bindings : List (Token × Value)) :
    Yields (inCall f (inScope do
      defineAll bindings
      Run.executeAll exec f.body)) (·.ComesFrom f.body) :=
  .inCall (.inScope (.bind_any fun _ => h.executeAll f.body))

end JumpsOut

theorem jumpsOut_execute (settings : Settings) (fuel : Nat) :
    JumpsOut (execute settings fuel) := by
  induction fuel with
  | zero => exact fun _ => .throw .outOfFuel
  | succ fuel ih => exact ih.executeWith fuel

/-- Fuel is spent on trees level by level, on the statements with the property at least. -/
structure Unrolls (settings : Settings) (q : Stmt → Prop) (eval : Nat → Expr → Run Value)
    (exec : Nat → Stmt → Run Flow) : Prop where
  eval_zero (e : Expr) : eval 0 e = throw .outOfFuel
  exec_zero (s : Stmt) : exec 0 s = throw .outOfFuel
  eval_succ (fuel : Nat) (e : Expr) :
    eval (fuel + 1) e = evaluateWith settings (eval fuel) (exec fuel) e
  exec_succ (fuel : Nat) (s : Stmt) : q s →
    exec (fuel + 1) s = executeWith settings fuel (eval fuel) (exec fuel) s
  jumps (fuel : Nat) : JumpsOut (exec fuel)

theorem unrolls_execute (settings : Settings) (q : Stmt → Prop) :
    Unrolls settings q (evaluate settings) (execute settings) where
  eval_zero _ := rfl
  exec_zero _ := rfl
  eval_succ _ _ := rfl
  exec_succ _ _ _ := rfl
  jumps := jumpsOut_execute settings

/-- Loops end normally or by a return. -/
theorem jumpError?_of_execute_loop {settings : Settings} {fuel : Nat} {s : Stmt}
    (hloop : s.isLoop) : Yields (execute settings fuel s) (·.jumpError? = none) :=
  (jumpsOut_execute settings fuel s).mono fun flow hflow => by
    rw [Option.eq_none_iff_forall_ne_some]
    intro e he
    obtain ⟨t, ht, hout⟩ := hflow e he
    rw [List.mem_singleton.mp ht] at hout
    exact Stmt.not_letsOut_of_isLoop hloop hout

end Run

end Scriptlet
