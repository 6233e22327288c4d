import Mathlib.Order.Lattice
import Scriptlet.Proofs.Machine.Compatible
import Scriptlet.Session.Basic

/-!
# Balanced runs

Whatever a program does and however it ends, the machine it leaves behind stands in the scopes in
which it started, with as many calls in progress as before.  In between no more calls are ever in
progress than the settings allow.  A session therefore starts every run in its global scope.
-/

namespace Scriptlet

/-- `m'` stands where `m` stood, and if more calls were in progress on the way from `m` to `m'`
than ever before, these were at most `limit`. -/
structure Machine.Balanced (limit : Nat) (m m' : Machine) : Prop where
  env : m'.env = m.env
  depth : m'.depth = m.depth
  deepest_mono : m.deepest ≤ m'.deepest
  deepest_le : m'.deepest ≤ max m.deepest limit

namespace Machine.Balanced

variable {limit : Nat} {m₁ m₂ m₃ : Machine}

theorem refl (m : Machine) : Balanced limit m m :=
  ⟨rfl, rfl, le_rfl, le_max_left _ _⟩

theorem trans (h : Balanced limit m₁ m₂) (h' : Balanced limit m₂ m₃) : Balanced limit m₁ m₃ where
  env := h'.env.trans h.env
  depth := h'.depth.trans h.depth
  deepest_mono := h.deepest_mono.trans h'.deepest_mono
  deepest_le := by
    have := h.deepest_le
    have := h'.deepest_le
    omega

theorem of_effects (m : Machine) (store : Store) (output : String) (moment : Nat) :
    Balanced limit m { m with store := store, output := output, moment := moment } :=
  ⟨rfl, rfl, le_rfl, le_max_left _ _⟩

theorem popScope_of_pushScope {m m' : Machine} (h : Balanced limit m.pushScope m') :
    Balanced limit m m'.popScope where
  env := by
    have henv : m'.env = m.env.enter m.store.size := h.env
    simp [Machine.popScope, henv]
  depth := h.depth
  deepest_mono := h.deepest_mono
  deepest_le := h.deepest_le

theorem leaveCall_of_enterCall {m m' : Machine} {f : Closure} (hm : m.depth < limit)
    (h : Balanced limit (m.enterCall f) m') : Balanced limit m (m'.leaveCall m.env) where
  env := rfl
  depth := by
    have hdepth : m'.depth = m.depth + 1 := h.depth
    simp [Machine.leaveCall, hdepth]
  deepest_mono := by
    have hmono : max m.deepest (m.depth + 1) ≤ m'.deepest := h.deepest_mono
    change m.deepest ≤ m'.deepest
    omega
  deepest_le := by
    have hle : m'.deepest ≤ max (max m.deepest (m.depth + 1)) limit := h.deepest_le
    change m'.deepest ≤ max m.deepest limit
    omega

end Machine.Balanced

namespace Run

def after {α : Type} (x : Run α) (m : Machine) : Machine :=
  match x m with
  | .ok _ m' => m'
  | .error _ m' => m'

def failure? {α : Type} (x : Run α) (m : Machine) : Option RuntimeError :=
  match x m with
  | .error (.failed e) _ => some e
  | _ => none

theorem eq_error_of_failure? {α : Type} {x : Run α} {m : Machine} {e : RuntimeError}
    (h : x.failure? m = some e) : x m = .error (.failed e) (x.after m) := by
  unfold failure? at h
  unfold after
  split at h
  · next hx =>
      cases h
      rw [hx]
  · cases h

def Balanced {α : Type} (limit : Nat) (x : Run α) : Prop :=
  ∀ m : Machine, m.Balanced limit (x.after m)

namespace Balanced

variable {limit : Nat} {α β : Type}

theorem pure (a : α) : Balanced limit (pure a : Run α) :=
  fun m => .refl m

theorem throw (halt : Halt) : Balanced limit (throw halt : Run α) :=
  fun m => .refl m

theorem bind_at {x : Run α} {f : α → Run β} {m : Machine} (hx : m.Balanced limit (x.after m))
    (hf : ∀ a, Balanced limit (f a)) : m.Balanced limit ((x >>= f).after m) := by
  unfold after at hx
  cases hxm : x m with
  | ok a m' =>
      rw [hxm] at hx
      simpa [after, Bind.bind, EStateM.bind, hxm] using hx.trans (hf a m')
  | error halt m' =>
      rw [hxm] at hx
      simpa [after, Bind.bind, EStateM.bind, hxm] using hx

theorem bind {x : Run α} {f : α → Run β} (hx : Balanced limit x)
    (hf : ∀ a, Balanced limit (f a)) : Balanced limit (x >>= f) :=
  fun m => bind_at (hx m) hf

theorem after_inScope (x : Run α) (m : Machine) :
    (Run.inScope x).after m = (x.after m.pushScope).popScope := by
  unfold after Run.inScope
  cases x m.pushScope <;> rfl

theorem after_inCall (x : Run α) (f : Closure) (m : Machine) :
    (Run.inCall f x).after m = (x.after (m.enterCall f)).leaveCall m.env := by
  unfold after Run.inCall
  dsimp only
  cases x (m.enterCall f) <;> rfl

theorem inScope {x : Run α} (hx : Balanced limit x) : Balanced limit (inScope x) := by
  intro m
  rw [after_inScope]
  exact (hx _).popScope_of_pushScope

theorem inCall {x : Run α} (hx : Balanced limit x) (f : Closure) {m : Machine}
    (hm : m.depth < limit) : m.Balanced limit ((inCall f x).after m) := by
  rw [after_inCall]
  exact (hx _).leaveCall_of_enterCall hm

/-! ## Primitive actions -/

theorem get_bind {f : Machine → Run α} (hf : ∀ m : Machine, m.Balanced limit ((f m).after m)) :
    Balanced limit (get >>= f) :=
  hf

theorem modifyGet {f : Machine → α × Machine} (hf : ∀ m : Machine, m.Balanced limit (f m).2) :
    Balanced limit (modifyGet f : Run α) :=
  hf

theorem failAt (line : Nat) (failure : Failure) : Balanced limit (failAt line failure : Run α) :=
  .throw _

theorem ofExcept (line : Nat) (r : Except Failure α) : Balanced limit (ofExcept line r) := by
  cases r with
  | ok a => exact .pure a
  | error failure => exact .failAt line failure

theorem print (settings : Settings) (text : String) : Balanced limit (print settings text) := by
  refine .modifyGet fun m => ?_
  cases settings.silent
  · exact .of_effects m m.store _ m.moment
  · exact .refl m

theorem callHost (settings : Settings) (f : HostFunction) (args : List Value) (line : Nat) :
    Balanced limit (callHost settings f args line) :=
  .bind (.modifyGet fun m => .of_effects m m.store m.output _) fun _ => .ofExcept line _

theorem lookup (name : Token) : Balanced limit (lookup name) := by
  refine .get_bind fun m => ?_
  cases m.env.lookup m.store name.lexeme with
  | none => exact failAt _ _ m
  | some v => exact pure v m

theorem define (name : Token) (v : Value) : Balanced limit (define name v) := by
  refine .bind (.modifyGet fun m => .of_effects m _ m.output m.moment) fun error? => ?_
  rcases error? with _ | _ | _
  · exact .pure ()
  · exact .failAt _ _
  · exact .failAt _ _

theorem assign (name : Token) (v : Value) : Balanced limit (assign name v) := by
  refine .bind (.modifyGet fun m => .of_effects m _ m.output m.moment) fun error? => ?_
  rcases error? with _ | _ | _
  · exact .pure ()
  · exact .failAt _ _
  · exact .failAt _ _

theorem makeClosure (name : Token) (params : List Token) (body : List Stmt) :
    Balanced limit (makeClosure name params body) :=
  .modifyGet fun m => .of_effects m _ m.output m.moment

/-! ## Programs -/

theorem enterCall {x : Run Flow} {k : Flow → Run Value} {limit : Nat} (f : Closure)
    (line : Nat) (hx : Balanced limit x) (hk : ∀ flow, Balanced limit (k flow)) :
    Balanced limit (do
      if limit ≤ (← get).depth then Run.failAt line .stackTooDeep
      else Run.inCall f x >>= k) := by
  refine .get_bind fun m => ?_
  split
  · exact failAt line _ m
  · next hroom => exact bind_at (hx.inCall f (Nat.lt_of_not_le hroom)) hk

/-- Balanced actions, as the actions that are related to themselves. -/
theorem compatible (settings : Settings) :
    Compatible settings settings fun x y => x = y ∧ Balanced settings.maxCallDepth x where
  pure a := ⟨rfl, .pure a⟩
  stop halt := ⟨rfl, .throw halt⟩
  bind := by
    rintro α β x _ f f' ⟨rfl, hx⟩ hf
    have hff : f = f' := funext fun a => (hf a).1
    exact ⟨by rw [hff], hx.bind fun a => (hf a).2⟩
  lookup name := ⟨rfl, .lookup name⟩
  define name v := ⟨rfl, .define name v⟩
  assign name v := ⟨rfl, .assign name v⟩
  makeClosure name params body := ⟨rfl, .makeClosure name params body⟩
  print text := ⟨rfl, .print settings text⟩
  host f args line := ⟨rfl, .callHost settings f args line⟩
  inScope := by
    rintro α x _ ⟨rfl, hx⟩
    exact ⟨rfl, hx.inScope⟩
  enterCall := by
    rintro x _ k k' f line ⟨rfl, hx⟩ hk
    have hkk : k = k' := funext fun a => (hk a).1
    exact ⟨by rw [hkk], .enterCall f line hx fun flow => (hk flow).2⟩

theorem evaluate (settings : Settings) (fuel : Nat) (e : Expr) :
    Balanced settings.maxCallDepth (evaluate settings fuel e) :=
  (((compatible settings).evaluate_execute fuel).1 e).2

theorem execute (settings : Settings) (fuel : Nat) (s : Stmt) :
    Balanced settings.maxCallDepth (execute settings fuel s) :=
  (((compatible settings).evaluate_execute fuel).2 s).2

theorem executeAll (settings : Settings) (fuel : Nat) (body : List Stmt) :
    Balanced settings.maxCallDepth (executeAll (Run.execute settings fuel) body) :=
  ((compatible settings).executeAll (((compatible settings).evaluate_execute fuel).2) body).2

theorem interpret (settings : Settings) (fuel : Nat) (program : List Stmt) :
    Balanced settings.maxCallDepth (interpret settings fuel program) :=
  ((compatible settings).interpret fuel program).2

end Balanced

end Run

/-! ## Sessions -/

namespace Session

/-- Between two runs a session stands just inside its global scope with no call in progress, and
no run has ever gone deeper than its settings allow. -/
structure AtRest (s : Session) : Prop where
  env : s.machine.env = Environment.start 0
  depth : s.machine.depth = 0
  deepest_le : s.machine.deepest ≤ s.settings.maxCallDepth

theorem atRest_initial (settings : Settings) (config : Diagnostic.QueueConfig)
    (globals : List (String × Value)) :
    AtRest ⟨settings, config, Machine.initial.withGlobals globals⟩ :=
  ⟨rfl, rfl, Nat.zero_le _⟩

theorem settings_runWith (s : Session) (fuel : Nat) (source : String) :
    (s.runWith fuel source).2.settings = s.settings := by
  unfold runWith
  split
  · rfl
  · split <;> rfl

theorem machine_runWith (s : Session) (fuel : Nat) (source : String) :
    (s.runWith fuel source).2.machine = s.machine ∨ ∃ program,
      (s.runWith fuel source).2.machine =
        (Run.interpret s.settings fuel program).after s.machine := by
  unfold runWith
  cases compile s.queueConfig source with
  | error e => exact .inl rfl
  | ok program =>
      refine .inr ⟨program, ?_⟩
      unfold Run.after
      dsimp only
      rcases Run.interpret s.settings fuel program s.machine with _ | ⟨_ | _, _⟩ <;> rfl

theorem AtRest.runWith {s : Session} (h : s.AtRest) (fuel : Nat) (source : String) :
    (s.runWith fuel source).2.AtRest := by
  have hbalanced : s.machine.Balanced s.settings.maxCallDepth
      (s.runWith fuel source).2.machine := by
    obtain hm | ⟨program, hm⟩ := s.machine_runWith fuel source
    · rw [hm]
      exact .refl _
    · rw [hm]
      exact Run.Balanced.interpret s.settings fuel program s.machine
  constructor
  · exact hbalanced.env.trans h.env
  · exact hbalanced.depth.trans h.depth
  · have hle := hbalanced.deepest_le
    rw [settings_runWith]
    exact hle.trans (max_le h.deepest_le le_rfl)

end Session

/-- Every run ends in the scopes and at the call depth at which it started, whether it gives a
result, stops with an error or is cut off; on its way it never exceeds the allowed call depth.  So
all runs of a session start in the global scope with no call in progress, also after a failure. -/
theorem run_balanced (settings : Settings) (fuel : Nat) :
    (∀ e, (Run.evaluate settings fuel e).Balanced settings.maxCallDepth) ∧
    (∀ s, (Run.execute settings fuel s).Balanced settings.maxCallDepth) ∧
    (∀ body, (Run.executeAll (Run.execute settings fuel) body).Balanced settings.maxCallDepth) ∧
    (∀ program, (Run.interpret settings fuel program).Balanced settings.maxCallDepth) ∧
    ∀ (config : Diagnostic.QueueConfig) (globals : List (String × Value))
      (runs : List (Nat × String)),
      (runs.foldl (fun s run => (s.runWith run.1 run.2).2)
        (⟨settings, config, Machine.initial.withGlobals globals⟩ : Session)).AtRest := by
  refine ⟨.evaluate settings fuel, .execute settings fuel, .executeAll settings fuel,
    .interpret settings fuel, ?_⟩
  intro config globals runs
  have hstart := Session.atRest_initial settings config globals
  generalize (⟨settings, config, Machine.initial.withGlobals globals⟩ : Session) = s at hstart ⊢
  induction runs generalizing s with
  | nil => exact hstart
  | cons run runs ih => exact ih _ (hstart.runWith run.1 run.2)

end Scriptlet
