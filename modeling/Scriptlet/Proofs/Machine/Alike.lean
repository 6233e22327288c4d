import Scriptlet.Proofs.Machine.Simulation
import Scriptlet.Proofs.Scope.Alike
import Scriptlet.Proofs.Value.Result

/-!
# Machines that differ in their functions

Machines that are alike stay alike, whatever program they run, each with its own line numbers: both
runs print the same and end in the same way.  Both call the host at the same moments, and the host
does not look at line numbers.
-/

namespace Scriptlet

variable {L : Likeness}

/-- Functions that are yet to be made may differ in any line numbers that are admitted.  What was
called is left open. -/
structure Machine.Alike (L : Likeness) (m m' : Machine) : Prop where
  store : Store.Alike L m.store m'.store
  env_eq : m'.env = m.env
  depth_eq : m'.depth = m.depth
  deepest_eq : m'.deepest = m.deepest
  output_eq : m'.output = m.output
  moment_eq : m'.moment = m.moment
  later (f : Closure) {g : Nat → Nat} :
    m.store.closures ≤ f.id → L.line g → L.closure f (f.renumber g)

namespace Machine.Alike

variable {m m' : Machine}

theorem current_eq (h : Alike L m m') : m'.env.current = m.env.current :=
  congrArg Environment.current h.env_eq

theorem withStore (h : Alike L m m') {st st' : Store} (hstore : Store.Alike L st st')
    (hclosures : m.store.closures ≤ st.closures) :
    Alike L { m with store := st } { m' with store := st' } where
  store := hstore
  env_eq := h.env_eq
  depth_eq := h.depth_eq
  deepest_eq := h.deepest_eq
  output_eq := h.output_eq
  moment_eq := h.moment_eq
  later f _ hf := h.later f (Nat.le_trans hclosures hf)

theorem withEnv (h : Alike L m m') (env : Environment) :
    Alike L { m with env := env } { m' with env := env } :=
  ⟨h.store, rfl, h.depth_eq, h.deepest_eq, h.output_eq, h.moment_eq, h.later⟩

theorem pushScope (h : Alike L m m') : Alike L m.pushScope m'.pushScope := by
  have hpushed := (h.withStore (h.store.addChild m.env.current) (Nat.le_refl _)).withEnv
    (m.env.enter m.store.size)
  unfold Machine.pushScope Environment.push
  rw [h.env_eq, h.store.size_eq]
  exact hpushed

theorem popScope (h : Alike L m m') : Alike L m.popScope m'.popScope := by
  unfold Machine.popScope
  rw [h.env_eq]
  exact h.withEnv m.env.leave

theorem enterCall (h : Alike L m m') {f f' : Closure} (hf : L.closure f f') :
    Alike L (m.enterCall f) (m'.enterCall f') where
  store := h.store
  env_eq := by
    obtain ⟨g, -, rfl⟩ := L.of_closure hf
    rw [Machine.enterCall, Machine.enterCall, h.env_eq]
    rfl
  depth_eq := congrArg (· + 1) h.depth_eq
  deepest_eq := by rw [Machine.enterCall, Machine.enterCall, h.depth_eq, h.deepest_eq]
  output_eq := h.output_eq
  moment_eq := h.moment_eq
  later := h.later

theorem leaveCall (h : Alike L m m') (caller : Environment) :
    Alike L (m.leaveCall caller) (m'.leaveCall caller) where
  store := h.store
  env_eq := rfl
  depth_eq := congrArg (· - 1) h.depth_eq
  deepest_eq := h.deepest_eq
  output_eq := h.output_eq
  moment_eq := h.moment_eq
  later := h.later

theorem global? (h : Alike L m m') (name : String) :
    Option.Rel (Value.Alike L) (m.global? name) (m'.global? name) := by
  rw [Machine.global?, Machine.global?, h.env_eq]
  exact h.store.lookup m.env.globalScope name

end Machine.Alike

namespace Run

inductive EndsAlike (L : Likeness) {α : Type} [Comparable L α] :
    EStateM.Result Halt Machine α → EStateM.Result Halt Machine α → Prop where
  | ok {a a' : α} {m m' : Machine} (ha : Comparable.Alike L a a') (hm : Machine.Alike L m m') :
      EndsAlike L (.ok a m) (.ok a' m')
  | outOfFuel {m m' : Machine} (hm : Machine.Alike L m m') :
      EndsAlike L (.error .outOfFuel m) (.error .outOfFuel m')
  | failed {m m' : Machine} {g : Nat → Nat} (failure : Failure) (line : Nat) (hg : L.line g)
      (hm : Machine.Alike L m m') :
      EndsAlike L (.error (.failed ⟨failure, line⟩) m) (.error (.failed ⟨failure, g line⟩) m')

def Alike (L : Likeness) {α : Type} [Comparable L α] (x x' : Run α) : Prop :=
  ∀ m m', Machine.Alike L m m' → EndsAlike L (x m) (x' m')

namespace Alike

variable {α β : Type} [Comparable L α] [Comparable L β] {g : Nat → Nat}

theorem failAt (line : Nat) (failure : Failure) (hg : L.line g) :
    Alike L (failAt line failure : Run α) (Run.failAt (g line) failure) :=
  fun _ _ hm => .failed failure line hg hm

theorem bind {x x' : Run α} {f f' : α → Run β} (hx : Alike L x x')
    (hf : ∀ a a', Comparable.Alike L a a' → Alike L (f a) (f' a')) :
    Alike L (x >>= f) (x' >>= f') := by
  intro m m' hm
  have hends := hx m m' hm
  revert hends
  simp only [Bind.bind, EStateM.bind]
  generalize x m = r, x' m' = r'
  rintro (⟨ha, hm⟩ | hm | ⟨failure, line, hg, hm⟩)
  · exact hf _ _ ha _ _ hm
  · exact .outOfFuel hm
  · exact .failed failure line hg hm

theorem lookup (name : Token) (hg : L.line g) :
    Alike L (lookup name) (Run.lookup (name.renumber g)) := by
  intro m m' hm
  have hlookup := hm.store.lookup_env m.env name.lexeme
  revert hlookup
  rw [lookup_apply, lookup_apply, hm.env_eq, Token.lexeme_renumber]
  generalize m.env.lookup m.store name.lexeme = a, m.env.lookup m'.store name.lexeme = a'
  rintro (hv | _)
  · exact .ok hv hm
  · exact .failed _ name.line hg hm

theorem modifyGet_bind {α' : Type} {f f' : Machine → α' × Machine} {k k' : α' → Run β}
    (hf : ∀ m m', Machine.Alike L m m' →
      (f' m').1 = (f m).1 ∧ Machine.Alike L (f m).2 (f' m').2)
    (hk : ∀ a, Alike L (k a) (k' a)) : Alike L (modifyGet f >>= k) (modifyGet f' >>= k') := by
  intro m m' hm
  obtain ⟨heq, hm⟩ := hf m m' hm
  rw [Run.modifyGet_bind, Run.modifyGet_bind, heq]
  exact hk _ _ _ hm

theorem define {v v' : Value} (name : Token) (hg : L.line g) (hv : Value.Alike L v v') :
    Alike L (define name v) (Run.define (name.renumber g) v') := by
  refine modifyGet_bind (fun m m' hm => ?_) fun error? => ?_
  · obtain ⟨herror, hstore⟩ := hm.store.define m.env.current name.lexeme hv
    rw [hm.current_eq, Token.lexeme_renumber]
    exact ⟨herror, hm.withStore hstore (by simp)⟩
  · rcases error? with _ | _ | _
    · exact fun _ _ hm => .ok trivial hm
    · exact failAt name.line (.constantReassignment name.lexeme) hg
    · exact failAt name.line .dynamicConstant hg

theorem assign {v v' : Value} (name : Token) (hg : L.line g) (hv : Value.Alike L v v') :
    Alike L (assign name v) (Run.assign (name.renumber g) v') := by
  refine modifyGet_bind (fun m m' hm => ?_) fun error? => ?_
  · obtain ⟨herror, hstore⟩ := hm.store.assign m.env.current name.lexeme hv
    rw [hm.current_eq, Token.lexeme_renumber]
    exact ⟨herror, hm.withStore hstore (by simp)⟩
  · rcases error? with _ | _ | _
    · exact fun _ _ hm => .ok trivial hm
    · exact failAt name.line (.undefinedVariable name.lexeme) hg
    · exact failAt name.line (.constantReassignment name.lexeme) hg

theorem makeClosure (name : Token) (params : List Token) (body : List Stmt) (hg : L.line g) :
    Alike L (makeClosure name params body)
      (Run.makeClosure (name.renumber g) (params.map (Token.renumber g))
        (body.map (Stmt.renumber g))) := by
  intro m m' hm
  have hclosure := hm.later ⟨m.store.closures, name.lexeme, params, body, m.env.current⟩
    (Nat.le_refl _) hg
  refine .ok ?_ (hm.withStore hm.store.addClosure (Nat.le_succ _))
  rw [hm.store.closures_eq, hm.env_eq]
  exact .closure hclosure

theorem print (settings : Settings) (text : String) :
    Alike L (print settings text) (Run.print settings text) := by
  intro m m' hm
  refine .ok trivial ?_
  dsimp only
  split
  · exact hm
  · exact { hm with output_eq := congrArg (· ++ text) hm.output_eq }

theorem ofExcept {r r' : Except Failure Value} (line : Nat) (hg : L.line g)
    (hr : Value.AlikeResult L r r') : Alike L (ofExcept line r) (Run.ofExcept (g line) r') := by
  cases hr with
  | ok hv => exact fun _ _ hm => .ok hv hm
  | error failure => exact failAt line failure hg

theorem callHost {settings : Settings} (hhost : settings.IgnoresLines) (f : HostFunction)
    {args args' : List Value} (line : Nat) (hg : L.line g)
    (hargs : List.Forall₂ (Value.Alike L) args args') :
    Alike L (callHost settings f args line) (Run.callHost settings f args' (g line)) :=
  modifyGet_bind
    (fun _ _ hm => ⟨hm.moment_eq, { hm with moment_eq := congrArg (· + 1) hm.moment_eq }⟩)
    fun _ => ofExcept line hg (HostFunction.alike_call hhost hargs)

theorem inScope {x x' : Run α} (hx : Alike L x x') : Alike L (inScope x) (Run.inScope x') := by
  intro m m' hm
  have hends := hx _ _ hm.pushScope
  revert hends
  unfold Run.inScope
  generalize x m.pushScope = r, x' m'.pushScope = r'
  rintro (⟨ha, hm⟩ | hm | ⟨failure, line, hg, hm⟩)
  · exact .ok ha hm.popScope
  · exact .outOfFuel hm.popScope
  · exact .failed failure line hg hm.popScope

theorem inCall {x x' : Run α} {f f' : Closure} (hf : L.closure f f') (hx : Alike L x x') :
    Alike L (inCall f x) (Run.inCall f' x') := by
  intro m m' hm
  have hends := hx _ _ (hm.enterCall hf)
  revert hends
  unfold Run.inCall
  rw [hm.env_eq]
  generalize x (m.enterCall f) = r, x' (m'.enterCall f') = r'
  rintro (⟨ha, hm⟩ | hm | ⟨failure, line, hg, hm⟩)
  · exact .ok ha (hm.leaveCall m.env)
  · exact .outOfFuel (hm.leaveCall m.env)
  · exact .failed failure line hg (hm.leaveCall m.env)

theorem simulation {settings : Settings} (hhost : settings.IgnoresLines) :
    Simulation L settings settings fun x x' => Alike L x x' where
  pure ha := fun _ _ hm => .ok ha hm
  outOfFuel := fun _ _ hm => .outOfFuel hm
  failAt line failure hg := failAt line failure hg
  bind hx hf := hx.bind hf
  lookup name hg := lookup name hg
  define name hg hv := define name hg hv
  assign name hg hv := assign name hg hv
  makeClosure name params body hg := makeClosure name params body hg
  print text := print settings text
  host f line hg hargs := callHost hhost f line hg hargs
  inScope hx := hx.inScope
  enterCall line hg hf hx hk := by
    intro m m' hm
    change EndsAlike L
      ((if settings.maxCallDepth ≤ m.depth then Run.failAt line .stackTooDeep
        else Run.inCall _ _ >>= _) m)
      ((if settings.maxCallDepth ≤ m'.depth then Run.failAt _ .stackTooDeep
        else Run.inCall _ _ >>= _) m')
    rw [hm.depth_eq]
    split
    · exact failAt line _ hg m m' hm
    · exact (hx.inCall hf).bind hk m m' hm

end Alike

end Run

end Scriptlet
