import Scriptlet.Proofs.Machine.Alike
import Scriptlet.Proofs.Machine.Start
import Scriptlet.Proofs.Tree.Tokens

/-!
# Lines of failures

A run looks at no line number, so with other line numbers it fails on the line that the line of the
failure has become, however long before the call the function was made.  A change of line numbers
that leaves a program alone therefore leaves the line of its failure alone, and so that line is one
on which a token of the program stands.
-/

namespace Scriptlet

def Likeness.renumbered (f : Nat → Nat) : Likeness where
  closure c c' := c' = c.renumber f
  line g := g = f
  of_closure h := ⟨f, rfl, h⟩

theorem Machine.alike_renumbered {globals : List (String × Value)}
    (hglobals : ∀ b ∈ globals, ∀ c, ¬b.2.Holds c) (f : Nat → Nat) :
    Machine.Alike (.renumbered f) (initial.withGlobals globals) (initial.withGlobals globals) where
  store := by
    apply withGlobals_induction (motive := fun st => Store.Alike (.renumbered f) st st)
    · constructor
      · rfl
      · rfl
      · intro i
        rcases i with _ | i
        · exact .some ⟨rfl, .nil⟩
        · exact .none
    · intro b hb st hst
      exact hst.set _ _ (Value.alike_self b.2 fun c hc => absurd hc (hglobals b hb c))
  env_eq := rfl
  depth_eq := rfl
  deepest_eq := rfl
  output_eq := rfl
  moment_eq := rfl
  later c g _ hg := by
    subst hg
    rfl

namespace Run

variable {L : Likeness} {α : Type} [Comparable L α]

theorem EndsAlike.exists_line {r r' : EStateM.Result Halt Machine α} (h : EndsAlike L r r')
    {e e' : RuntimeError} {m m' : Machine} (hr : r = .error (.failed e) m)
    (hr' : r' = .error (.failed e') m') : ∃ g, L.line g ∧ e'.line = g e.line := by
  cases h with
  | ok _ _ => cases hr
  | outOfFuel _ => cases hr
  | failed failure line hg _ =>
      cases hr
      cases hr'
      exact ⟨_, hg, rfl⟩

/-- A program that is run on a machine without functions fails on the line of one of its tokens. -/
theorem exists_token_of_failed {settings : Settings} (hhost : settings.IgnoresLines)
    {fuel : Nat} {program : List Stmt}
    {globals : List (String × Value)} {e : RuntimeError} {m : Machine}
    (hglobals : ∀ b ∈ globals, ∀ c, ¬b.2.Holds c)
    (hrun : interpret settings fuel program (Machine.initial.withGlobals globals) =
      .error (.failed e) m) :
    ∃ s ∈ program, ∃ t, s.Has t ∧ t.line = e.line := by
  classical
  -- Every line moves on which no token stands.
  let stands : Nat → Prop := fun line => ∃ s ∈ program, ∃ t, s.Has t ∧ t.line = line
  let f : Nat → Nat := fun line => if stands line then line else line + 1
  have hfixed : ∀ s ∈ program, s.renumber f = s := by
    intro s hs
    apply Stmt.renumber_of_keeps
    rw [Stmt.keeps_iff]
    intro t ht
    exact if_pos ⟨s, hs, t, ht, rfl⟩
  have hprogram : program.map (Stmt.renumber f) = program := by
    rw [List.map_congr_left hfixed, List.map_id']
  have hends := (Run.Alike.simulation hhost).interpret fuel (g := f) (rfl : f = f) program _ _
    (Machine.alike_renumbered hglobals f)
  rw [hprogram] at hends
  obtain ⟨g, hg, hline⟩ := hends.exists_line hrun hrun
  rw [show g = f from hg] at hline
  by_contra hnone
  have hmoved : f e.line = e.line + 1 := if_neg hnone
  omega

end Run

end Scriptlet
