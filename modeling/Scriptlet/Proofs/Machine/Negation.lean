import Scriptlet.Proofs.Machine.Ending
import Scriptlet.Proofs.Value.Result

/-!
# Negated conditions

An `until` loop is a `while` loop on the negated condition, and `unless` is `if` on the negated
condition.  The negation takes one more unit of fuel to evaluate, so runs are compared as a whole
and not fuel by fuel.
-/

namespace Scriptlet.Run

/-- On any machine, both statements go on for ever, or both end in the same way: with the same flow
or the same error, and with the same machine. -/
def SameEffect (settings : Settings) (s s' : Stmt) : Prop :=
  ∀ m, Diverges (execute settings · s) m ∧ Diverges (execute settings · s') m ∨
    ∃ r, Ends (execute settings · s) m r ∧ Ends (execute settings · s') m r

theorem sameEffect_of_sameUnless {settings : Settings} {s s' : Stmt} {more : Nat}
    (h : ∀ fuel, SameUnless (· = .outOfFuel) (execute settings fuel s)
      (execute settings (fuel + more) s'))
    (h' : ∀ fuel, SameUnless (· = .outOfFuel) (execute settings fuel s')
      (execute settings fuel s)) : SameEffect settings s s' := by
  intro m
  by_cases hfinished : ∃ fuel, Finished (execute settings fuel s m)
  · obtain ⟨fuel, hs⟩ := hfinished
    have heq := h fuel m (spared_outOfFuel_iff.mpr hs)
    have hends := ends_execute (heq ▸ hs)
    rw [heq] at hends
    exact .inr ⟨_, ends_execute hs, hends⟩
  · rw [not_exists] at hfinished
    refine .inl ⟨hfinished, fun fuel hs => hfinished fuel ?_⟩
    rwa [h' fuel m (spared_outOfFuel_iff.mpr hs)]

def negated (eval : Expr → Run Value) (condition : Expr) : Run Value := do
  return .bool (!(← eval condition).isTruthy)

theorem negated_bind {α : Type} (eval : Expr → Run Value) (condition : Expr)
    (next : Value → Run α) :
    negated eval condition >>= next =
      eval condition >>= fun v => next (.bool (!v.isTruthy)) := by
  simp [negated]

theorem isTruthy_bool (b : Bool) : (Value.bool b).isTruthy = b := by
  cases b <;> rfl

section Negation

variable {settings : Settings} {token : Token} {condition : Expr} {body : List Stmt}
variable {otherwise : Option (List Stmt)} {eval eval' : Expr → Run Value} {exec : Stmt → Run Flow}

theorem evaluate_negation (htoken : token.kind = .kwNot ∨ token.kind = .bang) (fuel : Nat) :
    evaluate settings fuel (.unary token condition) =
      negated (evaluate settings (fuel - 1)) condition := by
  cases fuel with
  | zero => rfl
  | succ fuel =>
      rcases htoken with h | h <;>
        simp [evaluate, evaluateWith, h, UnaryOp.ofKind?, Value.unary, ofExcept, negated]

theorem conditionalRound_negation (h : eval' (.unary token condition) = negated eval condition) :
    conditionalRound eval' exec true (.unary token condition) body =
      conditionalRound eval exec false condition body := by
  rw [conditionalRound, conditionalRound, h, negated_bind]
  simp [isTruthy_bool]

theorem executeWith_whileDo (h : eval' (.unary token condition) = negated eval condition)
    (fuel : Nat) :
    executeWith settings fuel eval' exec (.whileDo (.unary token condition) body) =
      executeWith settings fuel eval exec (.untilDo condition body) := by
  rw [executeWith, executeWith, conditionalRound_negation h]

theorem executeWith_ifDo (h : eval' (.unary token condition) = negated eval condition)
    (fuel : Nat) :
    executeWith settings fuel eval' exec (.ifDo [.unary token condition] [body] otherwise) =
      executeWith settings fuel eval exec (.unlessDo condition body otherwise) := by
  rw [executeWith, executeWith, List.zip_cons_cons, firstTrue, h, negated_bind]
  congr 1
  funext v
  cases hv : v.isTruthy <;> simp [isTruthy_bool, firstTrue]

section Fuel

variable {cut : Halt → Prop} (hcut : cut .outOfFuel)
variable (htoken : token.kind = .kwNot ∨ token.kind = .bang) {s s' : Stmt}
variable (h : ∀ fuel eval eval' exec, eval' (.unary token condition) = negated eval condition →
  executeWith settings fuel eval' exec s' = executeWith settings fuel eval exec s)
include hcut htoken h

theorem sameUnless_negation (fuel : Nat) :
    SameUnless cut (execute settings fuel s) (execute settings (fuel + 1) s') := by
  have hcompatible : Compatible settings settings (SameUnless cut) :=
    SameUnless.compatible settings (.inl rfl)
  cases fuel with
  | zero => exact .of_cut hcut _
  | succ fuel =>
      have heq := h (fuel + 1) (evaluate settings fuel) (evaluate settings (fuel + 1))
        (execute settings (fuel + 1)) (evaluate_negation htoken (fuel + 1))
      have hparts : SameUnless cut
          (executeWith settings fuel (evaluate settings fuel) (execute settings fuel) s)
          (executeWith settings fuel (evaluate settings fuel) (execute settings (fuel + 1)) s) :=
        hcompatible.executeWith (fun _ => .refl _) (SameUnless.evaluate_execute_succ hcut fuel).2
          fuel s
      have hloops : SameUnless cut
          (executeWith settings fuel (evaluate settings fuel) (execute settings (fuel + 1)) s)
          (executeWith settings (fuel + 1) (evaluate settings fuel) (execute settings (fuel + 1))
            s) :=
        SameUnless.executeWith_succ hcut _ _ fuel s
      rw [execute, execute, heq]
      exact hparts.trans hloops

theorem negation_sameUnless (fuel : Nat) :
    SameUnless cut (execute settings fuel s') (execute settings fuel s) := by
  have hcompatible : Compatible settings settings (SameUnless cut) :=
    SameUnless.compatible settings (.inl rfl)
  cases fuel with
  | zero => exact .of_cut hcut _
  | succ fuel =>
      have heq := h fuel (evaluate settings (fuel - 1)) (evaluate settings fuel)
        (execute settings fuel) (evaluate_negation htoken fuel)
      have hless : ∀ e, SameUnless cut (evaluate settings (fuel - 1) e)
          (evaluate settings fuel e) := by
        cases fuel with
        | zero => exact fun e => .refl _
        | succ fuel => exact (SameUnless.evaluate_execute_succ hcut fuel).1
      rw [execute, execute, heq]
      exact hcompatible.executeWith hless (fun _ => .refl _) fuel s

end Fuel

/-- Two statements that do the same once the negation is taken out of the second. -/
theorem sameEffect_of_executeWith (htoken : token.kind = .kwNot ∨ token.kind = .bang)
    {s s' : Stmt}
    (h : ∀ fuel eval eval' exec, eval' (.unary token condition) = negated eval condition →
      executeWith settings fuel eval' exec s' = executeWith settings fuel eval exec s) :
    SameEffect settings s s' := by
  apply sameEffect_of_sameUnless
  · exact fun fuel => sameUnless_negation (by rfl) htoken h fuel
  · exact fun fuel => negation_sameUnless (by rfl) htoken h fuel

end Negation

/-- An `until` loop has the effect of the `while` loop on the negated condition, and `unless` that
of `if` on the negated condition. -/
theorem negated_condition_sameEffect (settings : Settings) {token : Token}
    (htoken : token.kind = .kwNot ∨ token.kind = .bang) (condition : Expr) (body : List Stmt)
    (otherwise : Option (List Stmt)) :
    SameEffect settings (.untilDo condition body) (.whileDo (.unary token condition) body) ∧
      SameEffect settings (.unlessDo condition body otherwise)
        (.ifDo [.unary token condition] [body] otherwise) := by
  constructor
  · exact sameEffect_of_executeWith htoken fun fuel _ _ _ h => executeWith_whileDo h fuel
  · exact sameEffect_of_executeWith htoken fun fuel _ _ _ h => executeWith_ifDo h fuel

/-- A condition that calls a function, and a body that leaves the loop. -/
theorem negated_condition_sameEffect_call :
    let bang : Token := ⟨.bang, "!", none, 1⟩
    let condition : Expr :=
      .call (.var ⟨.identifier, "f", none, 1⟩) ⟨.rightParen, ")", none, 1⟩ []
    let body : List Stmt := [.breakLoop ⟨.kwBreak, "break", none, 2⟩]
    (bang.kind = .kwNot ∨ bang.kind = .bang) ∧
      SameEffect (.packing 10) (.untilDo condition body) (.whileDo (.unary bang condition) body) ∧
      SameEffect (.packing 10) (.unlessDo condition body none)
        (.ifDo [.unary bang condition] [body] none) := by
  intro bang condition body
  have hbang : bang.kind = .kwNot ∨ bang.kind = .bang := .inr rfl
  exact ⟨hbang, negated_condition_sameEffect (.packing 10) hbang condition body none⟩

end Scriptlet.Run
