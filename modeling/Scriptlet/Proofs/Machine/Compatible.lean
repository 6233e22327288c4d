import Scriptlet.Proofs.Machine.Simulation

/-!
# Compatible relations between runs

A relation between actions is compatible if it holds between the primitive actions and is carried
over by sequencing, by scopes and by calls.  Such a relation holds between the two runs of any
program: all constructs of the language are built from these parts.  A property of single actions
is the special case of a relation of each action to itself.
-/

namespace Scriptlet.Run

structure Compatible (settings settings' : Settings)
    (R : {α : Type} → Run α → Run α → Prop) : Prop where
  pure {α : Type} (a : α) : R (pure a : Run α) (pure a)
  stop {α : Type} (halt : Halt) : R (throw halt : Run α) (throw halt)
  bind {α β : Type} {x x' : Run α} {f f' : α → Run β} :
    R x x' → (∀ a, R (f a) (f' a)) → R (x >>= f) (x' >>= f')
  lookup (name : Token) : R (lookup name) (lookup name)
  define (name : Token) (v : Value) : R (define name v) (define name v)
  assign (name : Token) (v : Value) : R (assign name v) (assign name v)
  makeClosure (name : Token) (params : List Token) (body : List Stmt) :
    R (makeClosure name params body) (makeClosure name params body)
  print (text : String) : R (print settings text) (print settings' text)
  host (f : HostFunction) (args : List Value) (line : Nat) :
    R (callHost settings f args line) (callHost settings' f args line)
  inScope {α : Type} {x x' : Run α} : R x x' → R (inScope x) (inScope x')
  /-- A call is entered only where the depth of calls allows it. -/
  enterCall {x x' : Run Flow} {k k' : Flow → Run Value} (f : Closure) (line : Nat) :
    R x x' → (∀ flow, R (k flow) (k' flow)) →
      R (do
          if settings.maxCallDepth ≤ (← get).depth then failAt line .stackTooDeep
          else inCall f x >>= k)
        (do
          if settings'.maxCallDepth ≤ (← get).depth then failAt line .stackTooDeep
          else inCall f x' >>= k')

namespace Compatible

def sameness : Likeness where
  closure f f' := f' = f
  line g := g = id
  of_closure := by
    rintro f _ rfl
    exact ⟨id, rfl, by rw [renumber_closure_id, id]⟩

theorem isReflexive_sameness : sameness.IsReflexive :=
  ⟨fun _ => rfl, rfl⟩

theorem isRigid_sameness : sameness.IsRigid :=
  ⟨id, id⟩

variable {settings settings' : Settings} {R : {α : Type} → Run α → Run α → Prop}

theorem simulation (h : Compatible settings settings' R) :
    Simulation sameness settings settings' fun x x' => R x x' where
  pure ha := by
    cases Comparable.eq_of_alike isRigid_sameness ha
    exact h.pure _
  outOfFuel := h.stop _
  failAt line failure := by
    rintro rfl
    exact h.stop _
  bind hx hf := h.bind hx fun a => hf a a (Comparable.alike_refl isReflexive_sameness a)
  lookup name := by
    rintro rfl
    exact h.lookup name
  define name := by
    rintro rfl hv
    cases Value.eq_of_alike isRigid_sameness hv
    exact h.define name _
  assign name := by
    rintro rfl hv
    cases Value.eq_of_alike isRigid_sameness hv
    exact h.assign name _
  makeClosure name params body := by
    rintro rfl
    simpa using h.makeClosure name params body
  print text := h.print text
  host f line := by
    rintro rfl hargs
    cases eq_of_forall₂ (fun _ _ => Value.eq_of_alike isRigid_sameness) hargs
    exact h.host f _ line
  inScope hx := h.inScope hx
  enterCall line := by
    rintro rfl rfl hx hk
    exact h.enterCall _ line hx fun flow =>
      hk flow flow (Comparable.alike_refl isReflexive_sameness flow)

theorem evaluate_execute (h : Compatible settings settings' R) (fuel : Nat) :
    (∀ e, R (evaluate settings fuel e) (evaluate settings' fuel e)) ∧
      ∀ s, R (execute settings fuel s) (execute settings' fuel s) := by
  simpa using h.simulation.evaluate_execute fuel rfl

section Parts

variable {eval eval' : Expr → Run Value} {exec exec' : Stmt → Run Flow}

theorem evaluateWith (h : Compatible settings settings' R) (he : ∀ e, R (eval e) (eval' e))
    (hs : ∀ s, R (exec s) (exec' s)) (e : Expr) :
    R (evaluateWith settings eval exec e) (Run.evaluateWith settings' eval' exec' e) := by
  have hs' : ∀ g, sameness.line g → ∀ s, R (exec s) (exec' (s.renumber g)) := by
    rintro g rfl
    simpa using hs
  simpa using h.simulation.evaluateWith (g := id) (by simpa using he) hs' rfl e

theorem executeWith (h : Compatible settings settings' R) (he : ∀ e, R (eval e) (eval' e))
    (hs : ∀ s, R (exec s) (exec' s)) (fuel : Nat) (s : Stmt) :
    R (executeWith settings fuel eval exec s)
      (Run.executeWith settings' fuel eval' exec' s) := by
  simpa using h.simulation.executeWith (g := id) (by simpa using he) (by simpa using hs) rfl fuel s

end Parts

theorem executeAll (h : Compatible settings settings' R) {exec exec' : Stmt → Run Flow}
    (hs : ∀ s, R (exec s) (exec' s)) (body : List Stmt) :
    R (executeAll exec body) (Run.executeAll exec' body) := by
  simpa using h.simulation.executeAll (g := id) (by simpa using hs) body

theorem interpretWith (h : Compatible settings settings' R) {exec exec' : Stmt → Run Flow}
    (hs : ∀ s, R (exec s) (exec' s)) (program : List Stmt) :
    R (interpretWith exec program) (Run.interpretWith exec' program) := by
  simpa using h.simulation.interpretWith (g := id) (by simpa using hs) program

theorem interpret (h : Compatible settings settings' R) (fuel : Nat) (program : List Stmt) :
    R (interpret settings fuel program) (Run.interpret settings' fuel program) :=
  h.interpretWith (h.evaluate_execute fuel).2 program

end Compatible

end Scriptlet.Run
