import Scriptlet.Proofs.Machine.Cut

/-!
# More fuel

Fuel only cuts runs off.  A run that was not cut off ends in the same way under any larger amount of
fuel, so its answer is the answer of the program.
-/

namespace Scriptlet

def Finished {α : Type} (r : EStateM.Result Halt Machine α) : Prop :=
  ∀ m, r ≠ .error .outOfFuel m

theorem spared_outOfFuel_iff {α : Type} {r : EStateM.Result Halt Machine α} :
    Spared (· = .outOfFuel) r ↔ Finished r := by
  constructor
  · intro h m heq
    exact h _ m heq rfl
  · rintro h halt m heq rfl
    exact h m heq

namespace Run

/-! ## One more unit -/

namespace SameUnless

variable {cut : Halt → Prop} {settings : Settings}

section Fuel

variable (hcut : cut .outOfFuel)
include hcut

theorem loop (round : Run (Option Flow)) (fuel : Nat) :
    SameUnless cut (loop round fuel) (Run.loop round (fuel + 1)) := by
  induction fuel with
  | zero => exact of_cut hcut _
  | succ fuel ih =>
      refine bind (refl round) fun ending => ?_
      cases ending with
      | none => exact ih
      | some flow => exact refl _

theorem executeWith_succ (eval : Expr → Run Value) (exec : Stmt → Run Flow) (fuel : Nat)
    (s : Stmt) :
    SameUnless cut (executeWith settings fuel eval exec s)
      (executeWith settings (fuel + 1) eval exec s) := by
  cases s with
  | whileDo condition body => exact loop hcut _ fuel
  | untilDo condition body => exact loop hcut _ fuel
  | loopDo body => exact inScope (loop hcut _ fuel)
  | _ => exact refl _

theorem evaluate_execute_succ (fuel : Nat) :
    (∀ e, SameUnless cut (evaluate settings fuel e) (evaluate settings (fuel + 1) e)) ∧
      ∀ s, SameUnless cut (execute settings fuel s) (execute settings (fuel + 1) s) := by
  have hcompatible : Compatible settings settings (SameUnless cut) := compatible settings (.inl rfl)
  induction fuel with
  | zero => exact ⟨fun _ => of_cut hcut _, fun _ => of_cut hcut _⟩
  | succ fuel ih =>
      obtain ⟨he, hs⟩ := ih
      constructor
      · exact hcompatible.evaluateWith he hs
      · intro s
        exact (hcompatible.executeWith he hs fuel s).trans (executeWith_succ hcut _ _ fuel s)

theorem execute {fuel fuel' : Nat} (hle : fuel ≤ fuel') (s : Stmt) :
    SameUnless cut (execute settings fuel s) (Run.execute settings fuel' s) := by
  induction hle with
  | refl => exact refl _
  | step _ ih => exact ih.trans ((evaluate_execute_succ hcut _).2 s)

theorem interpret {fuel fuel' : Nat} (hle : fuel ≤ fuel') (program : List Stmt) :
    SameUnless cut (interpret settings fuel program) (Run.interpret settings fuel' program) := by
  have hcompatible : Compatible settings settings (SameUnless cut) := compatible settings (.inl rfl)
  exact hcompatible.interpretWith (execute hcut hle) program

end Fuel

end SameUnless

/-! ## Any more fuel -/

/-- Where the first action is not cut off, the second does the same. -/
def Settles {α : Type} (x x' : Run α) : Prop :=
  ∀ m, Finished (x m) → x' m = x m

/-- An answer that was found stands, however much more fuel there is. -/
theorem Settles.interpret {settings : Settings} {fuel fuel' : Nat} (hle : fuel ≤ fuel')
    (program : List Stmt) :
    Settles (interpret settings fuel program) (Run.interpret settings fuel' program) := by
  intro m hm
  have hsame : SameUnless (· = .outOfFuel) (Run.interpret settings fuel program)
      (Run.interpret settings fuel' program) := by
    refine SameUnless.interpret ?_ hle program
    rfl
  exact hsame m (spared_outOfFuel_iff.mpr hm)

end Run

end Scriptlet
