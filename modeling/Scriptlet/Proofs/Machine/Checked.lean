import Scriptlet.Proofs.Machine.Cut
import Scriptlet.Proofs.Machine.Jumps

/-!
# Lists that are gone through in step

The machine goes through the conditions and the branches of a statement in step, and through the
names and the values of an assignment to several names.  Where one of the lists is longer, the rest
of it is passed over in silence.  A checked run stops there instead, so a checked run that is not
stopped has passed over nothing; and it is the plain run.
-/

namespace Scriptlet

/-- The lists that are gone through in step have one length. -/
def Stmt.inStep : Stmt → Bool
  | .ifDo conditions branches _ | .caseDo _ conditions branches _ =>
      conditions.length == branches.length
  | .assign names values => names.length == values.length
  | _ => true

namespace Run

/-- How a checked run refuses a statement: as one refuses an operator, where no operator is. -/
def misfit : Halt :=
  .failed ⟨.unsupportedOperator "", 0⟩

mutual

def evaluateChecked (settings : Settings) : Nat → Expr → Run Value
  | 0, _ => throw .outOfFuel
  | fuel + 1, e =>
      evaluateWith settings (evaluateChecked settings fuel) (executeChecked settings fuel) e

def executeChecked (settings : Settings) : Nat → Stmt → Run Flow
  | 0, _ => throw .outOfFuel
  | fuel + 1, s =>
      if s.inStep then
        executeWith settings fuel (evaluateChecked settings fuel) (executeChecked settings fuel) s
      else throw misfit

end

variable {settings : Settings}

theorem jumpsOut_executeChecked (settings : Settings) (fuel : Nat) :
    JumpsOut (executeChecked settings fuel) := by
  induction fuel with
  | zero => exact fun _ => .throw .outOfFuel
  | succ fuel ih =>
      intro s
      rw [executeChecked]
      split
      · exact ih.executeWith fuel s
      · exact .throw misfit

theorem unrolls_executeChecked (settings : Settings) {q : Stmt → Prop}
    (hq : ∀ s, q s → s.inStep) :
    Unrolls settings q (evaluateChecked settings) (executeChecked settings) where
  eval_zero _ := rfl
  exec_zero _ := rfl
  eval_succ _ _ := rfl
  exec_succ fuel s hs := by rw [executeChecked, if_pos (hq s hs)]
  jumps := jumpsOut_executeChecked settings

/-! ## Checked runs and plain ones -/

theorem sameUnless_checked (fuel : Nat) :
    (∀ e, SameUnless (· = misfit) (evaluateChecked settings fuel e) (evaluate settings fuel e)) ∧
      ∀ s, SameUnless (· = misfit) (executeChecked settings fuel s) (execute settings fuel s) := by
  have hcompatible : Compatible settings settings (SameUnless (· = misfit)) :=
    SameUnless.compatible settings (.inl rfl)
  induction fuel with
  | zero => exact ⟨fun _ => .refl _, fun _ => .refl _⟩
  | succ fuel ih =>
      obtain ⟨he, hs⟩ := ih
      refine ⟨hcompatible.evaluateWith he hs, fun s => ?_⟩
      rw [executeChecked]
      split
      · exact hcompatible.executeWith he hs fuel s
      · refine .of_cut ?_ _
        rfl

/-- A checked run that refuses nothing is the plain run. -/
theorem interpret_eq_of_checked {fuel : Nat} {program : List Stmt} {m : Machine}
    (h : ∀ m', interpretWith (executeChecked settings fuel) program m ≠ .error misfit m') :
    interpretWith (executeChecked settings fuel) program m = interpret settings fuel program m := by
  have hcompatible : Compatible settings settings (SameUnless (· = misfit)) :=
    SameUnless.compatible settings (.inl rfl)
  refine (hcompatible.interpretWith (sameUnless_checked fuel).2 program m ?_).symm
  rintro _ m' heq rfl
  exact h m' heq

/-! ## Names and their values -/

theorem length_of_evaluateAll {eval : Expr → Run Value} {es : List Expr} {vs : List Value}
    {m m' : Machine} (h : evaluateAll eval es m = .ok vs m') : vs.length = es.length := by
  induction es generalizing m vs with
  | nil =>
      cases h
      rfl
  | cons e es ih =>
      simp only [evaluateAll, Bind.bind, EStateM.bind] at h
      cases he : eval e m with
      | error halt m₁ => simp [he] at h
      | ok v m₁ =>
          simp only [he] at h
          cases hrest : evaluateAll eval es m₁ with
          | error halt m₂ => simp [hrest] at h
          | ok vs' m₂ =>
              simp only [hrest] at h
              cases h
              simpa using ih hrest

end Run

/-- What the machine zips to go through it in step is zipped whole. -/
def Stmt.ZipsWhole : Stmt → Prop
  | .ifDo conditions branches _ | .caseDo _ conditions branches _ =>
      (conditions.zip branches).unzip = (conditions, branches)
  | .assign names es => ∀ (eval : Expr → Run Value) (m m' : Machine) (values : List Value),
      Run.evaluateAll eval es m = .ok values m' →
        (names.zip values).unzip = (names, values)
  | _ => True

theorem Stmt.zipsWhole_of_inStep {s : Stmt} (h : s.inStep) : s.ZipsWhole := by
  cases s with
  | ifDo conditions branches otherwise => exact List.unzip_zip (eq_of_beq h)
  | caseDo subject conditions branches otherwise => exact List.unzip_zip (eq_of_beq h)
  | assign names es =>
      intro eval m m' values hvalues
      have hlength : names.length = es.length := eq_of_beq h
      exact List.unzip_zip (hlength.trans (Run.length_of_evaluateAll hvalues).symm)
  | _ => trivial

end Scriptlet
