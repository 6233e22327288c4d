import Scriptlet.Proofs.Machine.Fuel

/-!
# How runs end

A run that is given fuel either ends in one way, which takes enough fuel and does not change with
more of it, or it goes on for ever.
-/

namespace Scriptlet.Run

variable {α β : Type}

/-- From some amount of fuel on, the run ends like this. -/
def Ends (x : Nat → Run α) (m : Machine) (r : EStateM.Result Halt Machine α) : Prop :=
  Finished r ∧ ∃ enough, ∀ fuel, enough ≤ fuel → x fuel m = r

def Diverges (x : Nat → Run α) (m : Machine) : Prop :=
  ∀ fuel, ¬Finished (x fuel m)

theorem finished_ok (a : α) (m : Machine) : Finished (.ok a m) :=
  spared_outOfFuel_iff.mp (spared_ok a m)

theorem finished_failed (e : RuntimeError) (m : Machine) :
    Finished (.error (.failed e) m : EStateM.Result Halt Machine α) := by
  rintro _ ⟨⟩

theorem ends_execute {settings : Settings} {fuel : Nat} {s : Stmt} {m : Machine}
    (h : Finished (execute settings fuel s m)) :
    Ends (execute settings · s) m (execute settings fuel s m) := by
  refine ⟨h, fuel, fun fuel' hle => ?_⟩
  have hsame : SameUnless (· = .outOfFuel) (execute settings fuel s)
      (execute settings fuel' s) := by
    refine SameUnless.execute ?_ hle s
    rfl
  exact hsame m (spared_outOfFuel_iff.mpr h)

/-! ## Sequencing -/

section Sequencing

variable {x : Nat → Run α} {m m' : Machine} {r : EStateM.Result Halt Machine β}

theorem ends_of_finished {y : Run β} (h : y m = r) (hr : Finished r) : Ends (fun _ => y) m r :=
  ⟨hr, 0, fun _ _ => h⟩

theorem Ends.bind {a : α} {y : α → Nat → Run β} (hx : Ends x m (.ok a m'))
    (hy : Ends (y a) m' r) : Ends (fun fuel => x fuel >>= fun a => y a fuel) m r := by
  obtain ⟨-, enough, hx⟩ := hx
  obtain ⟨hr, enough', hy⟩ := hy
  refine ⟨hr, max enough enough', fun fuel hle => ?_⟩
  have hfirst := hx fuel (Nat.le_trans (Nat.le_max_left _ _) hle)
  have hsecond := hy fuel (Nat.le_trans (Nat.le_max_right _ _) hle)
  simp only [Bind.bind, EStateM.bind, hfirst, hsecond]

theorem Ends.bind_of_error {halt : Halt} (hx : Ends x m (.error halt m')) (y : α → Nat → Run β) :
    Ends (fun fuel => x fuel >>= fun a => y a fuel) m (.error halt m') := by
  obtain ⟨hr, enough, hx⟩ := hx
  constructor
  · rintro _ ⟨⟩
    exact hr _ rfl
  · refine ⟨enough, fun fuel hle => ?_⟩
    simp only [Bind.bind, EStateM.bind, hx fuel hle]

theorem ends_execute_of_executeWith {settings : Settings} {s : Stmt}
    {r : EStateM.Result Halt Machine Flow}
    (h : Ends (fun fuel => executeWith settings fuel (evaluate settings fuel)
      (execute settings fuel) s) m r) : Ends (execute settings · s) m r := by
  obtain ⟨hr, enough, h⟩ := h
  refine ⟨hr, enough + 1, fun fuel hle => ?_⟩
  obtain ⟨fuel, rfl⟩ := Nat.exists_eq_add_of_le' (Nat.le_of_add_left_le hle)
  exact h fuel (by omega)

theorem ends_evaluate_of_evaluateWith {settings : Settings} {e : Expr}
    {r : EStateM.Result Halt Machine Value}
    (h : Ends (fun fuel => evaluateWith settings (evaluate settings fuel)
      (execute settings fuel) e) m r) : Ends (evaluate settings · e) m r := by
  obtain ⟨hr, enough, h⟩ := h
  refine ⟨hr, enough + 1, fun fuel hle => ?_⟩
  obtain ⟨fuel, rfl⟩ := Nat.exists_eq_add_of_le' (Nat.le_of_add_left_le hle)
  exact h fuel (by omega)

end Sequencing

end Scriptlet.Run
