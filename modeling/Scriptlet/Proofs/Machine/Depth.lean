import Mathlib
import Scriptlet.Proofs.Machine.Balance
import Scriptlet.Proofs.Machine.Fuel
import Scriptlet.Proofs.Value.Result

/-!
# Deeper calls

A higher limit on the depth of calls changes nothing for a program that keeps to the lower one, or
that fails for another reason before it gets there.  A run that stops at the limit is stopped for
good: no construct of the language catches the failure.
-/

namespace Scriptlet.Run

def OutOfRoom : Halt → Prop
  | .outOfFuel => True
  | .failed e => e.failure = .stackTooDeep

/-- A program that is given an answer, or a failure other than that calls are nested too deeply, is
given the same under a higher limit: the same result or failure on the same line, with the same
store and output, however much fuel there is. -/
theorem interpret_deeper (settings : Settings) {limit limit' : Nat} (hle : limit ≤ limit')
    (program : List Stmt) (m : Machine) (fuel : Nat)
    (hfinished : Finished (interpret { settings with maxCallDepth := limit } fuel program m))
    (hshallow : ∀ line m', interpret { settings with maxCallDepth := limit } fuel program m ≠
      .error (.failed ⟨.stackTooDeep, line⟩) m') :
    ∀ fuel', fuel ≤ fuel' →
      interpret { settings with maxCallDepth := limit' } fuel' program m =
        interpret { settings with maxCallDepth := limit } fuel program m := by
  intro fuel' hfuel
  have hspared : Spared OutOfRoom
      (interpret { settings with maxCallDepth := limit } fuel program m) := by
    rintro (_ | ⟨failure, line⟩) m' heq hcut
    · exact hfinished m' heq
    · obtain rfl : failure = .stackTooDeep := hcut
      exact hshallow line m' heq
  have hdeeper : SameUnless OutOfRoom
      (interpret { settings with maxCallDepth := limit } fuel program)
      (interpret { settings with maxCallDepth := limit' } fuel program) :=
    (SameUnless.compatible { settings with maxCallDepth := limit }
      (.inr ⟨hle, fun _ => rfl⟩)).interpret fuel program
  have hlonger : SameUnless OutOfRoom
      (interpret { settings with maxCallDepth := limit' } fuel program)
      (interpret { settings with maxCallDepth := limit' } fuel' program) :=
    SameUnless.interpret trivial hfuel program
  exact hdeeper.trans hlonger m hspared

/-- The function calls itself once, and the inner call fails; two calls are just admitted. -/
theorem interpret_deeper_recursion :
    let f : Token := ⟨.identifier, "f", none, 1⟩
    let n : Token := ⟨.identifier, "n", none, 1⟩
    let paren : Token := ⟨.rightParen, ")", none, 2⟩
    let program : List Stmt := [
      .define f [n] [.ifDo [.var n]
        [[.print ⟨.kwPuts, "puts", none, 2⟩ [] true,
          .expr (.call (.var f) paren [.literal (.bool false)])]]
        (some [.expr (.var ⟨.identifier, "y", none, 3⟩)])],
      .expr (.call (.var f) paren [.literal (.bool true)])]
    let m := (interpret (.packing 2) 9 program).after .initial
    interpret (.packing 2) 9 program .initial =
        .error (.failed ⟨.undefinedVariable "y", 3⟩) m ∧ m.output = "\n" ∧
      ∀ fuel, 9 ≤ fuel → interpret (.packing 7) fuel program .initial =
        .error (.failed ⟨.undefinedVariable "y", 3⟩) m := by
  intro f n paren program m
  have hrun : interpret (.packing 2) 9 program .initial =
      .error (.failed ⟨.undefinedVariable "y", 3⟩) m := eq_error_of_failure? (by cbv)
  have houtput : ((interpret (.packing 2) 9 program).after .initial).output = "\n" := by cbv
  refine ⟨hrun, houtput, ?_⟩
  rw [← hrun]
  have hle : 2 ≤ 7 := by decide
  have hfinished : Finished (interpret (.packing 2) 9 program .initial) := by
    simp [Finished, hrun]
  have hshallow : ∀ line m', interpret (.packing 2) 9 program .initial ≠
      .error (.failed ⟨.stackTooDeep, line⟩) m' := by simp [hrun]
  exact interpret_deeper (.packing 2) hle program .initial 9 hfinished hshallow

end Scriptlet.Run
