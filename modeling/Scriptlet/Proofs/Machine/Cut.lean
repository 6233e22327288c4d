import Scriptlet.Proofs.Machine.Compatible

/-!
# Runs that are not cut off

Fuel and the limit on call depth do no more than stop runs: nothing that a program can do depends on
them otherwise, and no construct goes on after a run inside it was stopped.  So an action that is
not stopped in one of these ways does the same where there is more of what it did not run out of.
-/

namespace Scriptlet

def Spared (cut : Halt → Prop) {α : Type} (r : EStateM.Result Halt Machine α) : Prop :=
  ∀ halt m, r = .error halt m → ¬cut halt

theorem spared_ok {cut : Halt → Prop} {α : Type} (a : α) (m : Machine) :
    Spared cut (.ok a m : EStateM.Result Halt Machine α) := by
  rintro _ _ ⟨⟩

theorem spared_error {cut : Halt → Prop} {α : Type} {halt : Halt} {m : Machine} :
    Spared cut (.error halt m : EStateM.Result Halt Machine α) ↔ ¬cut halt := by
  constructor
  · intro h
    exact h halt m rfl
  · rintro h _ _ ⟨⟩
    exact h

namespace Run

/-- Where the first action is not cut off, the second does the same. -/
def SameUnless (cut : Halt → Prop) {α : Type} (x x' : Run α) : Prop :=
  ∀ m, Spared cut (x m) → x' m = x m

namespace SameUnless

variable {cut : Halt → Prop} {α β : Type}

theorem refl (x : Run α) : SameUnless cut x x :=
  fun _ _ => rfl

theorem trans {x x' x'' : Run α} (h : SameUnless cut x x') (h' : SameUnless cut x' x'') :
    SameUnless cut x x'' := by
  intro m hm
  have heq := h m hm
  rw [h' m (heq ▸ hm), heq]

theorem of_cut {halt : Halt} (h : cut halt) (x : Run α) : SameUnless cut (throw halt) x :=
  fun _ hm => absurd h (hm halt _ rfl)

theorem bind {x x' : Run α} {f f' : α → Run β} (hx : SameUnless cut x x')
    (hf : ∀ a, SameUnless cut (f a) (f' a)) : SameUnless cut (x >>= f) (x' >>= f') := by
  intro m hm
  simp only [Bind.bind, EStateM.bind] at hm ⊢
  cases hxm : x m with
  | error halt m' =>
      rw [hxm, spared_error] at hm
      have hspared : Spared cut (x m) := by rwa [hxm, spared_error]
      rw [hx m hspared, hxm]
  | ok a m' =>
      rw [hxm] at hm
      have hspared : Spared cut (x m) := by
        rw [hxm]
        exact spared_ok a m'
      rw [hx m hspared, hxm]
      exact hf a m' hm

theorem inScope {x x' : Run α} (hx : SameUnless cut x x') :
    SameUnless cut (inScope x) (inScope x') := by
  intro m hm
  have hspared : Spared cut (x m.pushScope) := by
    intro halt m' heq
    apply hm halt m'.popScope
    simp [Run.inScope, heq]
  simp only [Run.inScope, hx _ hspared]

theorem inCall {x x' : Run α} (f : Closure) (hx : SameUnless cut x x') :
    SameUnless cut (inCall f x) (inCall f x') := by
  intro m hm
  have hspared : Spared cut (x (m.enterCall f)) := by
    intro halt m' heq
    apply hm halt (m'.leaveCall m.env)
    simp [Run.inCall, heq]
  simp only [Run.inCall, hx _ hspared]

/-- Calls may be nested more deeply on the second side if the first is cut off where its calls may
not. -/
theorem compatible (settings : Settings) {limit : Nat}
    (hlimit : limit = settings.maxCallDepth ∨
      settings.maxCallDepth ≤ limit ∧ ∀ line, cut (.failed ⟨.stackTooDeep, line⟩)) :
    Compatible settings { settings with maxCallDepth := limit } (SameUnless cut) where
  pure a := refl _
  stop halt := refl _
  bind := bind
  lookup name := refl _
  define name v := refl _
  assign name v := refl _
  makeClosure name params body := refl _
  print text := refl _
  host f args line := refl _
  inScope := inScope
  enterCall f line hx hk := by
    refine bind (refl get) fun m => ?_
    have hentered := bind (inCall f hx) hk
    rcases hlimit with rfl | ⟨hle, hcut⟩
    · split
      · exact refl _
      · exact hentered
    · split
      · exact of_cut (hcut line) _
      · next hroom =>
          -- where the first side has room for a call, so has the second
          rw [if_neg (by dsimp only; omega)]
          exact hentered

end SameUnless

end Run

end Scriptlet
