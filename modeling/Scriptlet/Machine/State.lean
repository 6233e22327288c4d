import Scriptlet.Scope.Environment
import Scriptlet.Value.Failure

/-!
The state of a running program.

A machine holds the scopes, the environment of the body that is running, how many calls are in
progress and what has been printed.  An action either gives a result, stops with a runtime error or
runs out of fuel; in each case the machine it leaves behind is at hand.  What is entered for a body
(a scope, or the environment of a call) is left again however the body ends.
-/

namespace Scriptlet

/-- What stays the same during a run.  The clock and the code of the host see the world as it is at
the moment they are called, and of the machine they see no more than values. -/
structure Settings where
  maxCallDepth : Nat
  silent : Bool
  clock : Nat → Float
  host : Nat → Nat → List Value → Except Failure Value

/-- `depth` counts the calls in progress, `deepest` is the most there ever were, and `called` says
of each function whether it was ever called.  At every `moment` the host was called once. -/
structure Machine where
  store : Store
  env : Environment
  depth : Nat
  deepest : Nat
  called : Closure → Prop
  output : String
  moment : Nat

inductive Halt where
  | outOfFuel
  | failed (e : RuntimeError)
  deriving DecidableEq, Repr

abbrev Run (α : Type) : Type :=
  EStateM Halt Machine α

namespace Machine

def initial : Machine where
  store := Store.empty.addRoot
  env := Environment.start 0
  depth := 0
  deepest := 0
  called := fun _ => False
  output := ""
  moment := 0

/-- Binds names in the global scope in order, whatever the names. -/
def withGlobals (m : Machine) (globals : List (String × Value)) : Machine :=
  { m with store := globals.foldl (fun st (name, v) => st.set m.env.globalScope name v) m.store }

def global? (m : Machine) (name : String) : Option Value :=
  m.store.lookup m.env.globalScope name

def pushScope (m : Machine) : Machine :=
  let (env, store) := m.env.push m.store
  { m with env := env, store := store }

def popScope (m : Machine) : Machine :=
  { m with env := m.env.leave }

def enterCall (m : Machine) (f : Closure) : Machine :=
  { m with
    env := m.env.enclosed f.scope
    depth := m.depth + 1
    deepest := max m.deepest (m.depth + 1)
    called := fun g => g = f ∨ m.called g }

def leaveCall (m : Machine) (caller : Environment) : Machine :=
  { m with env := caller, depth := m.depth - 1 }

def takeOutput (m : Machine) : String × Machine :=
  (m.output, { m with output := "" })

end Machine

namespace Run

def failAt {α : Type} (line : Nat) (failure : Failure) : Run α :=
  throw (.failed ⟨failure, line⟩)

def ofExcept {α : Type} (line : Nat) : Except Failure α → Run α
  | .ok a => pure a
  | .error failure => failAt line failure

def inScope {α : Type} (body : Run α) : Run α := fun m =>
  match body m.pushScope with
  | .ok a m => .ok a m.popScope
  | .error halt m => .error halt m.popScope

def inCall {α : Type} (f : Closure) (body : Run α) : Run α := fun m =>
  let caller := m.env
  match body (m.enterCall f) with
  | .ok a m => .ok a (m.leaveCall caller)
  | .error halt m => .error halt (m.leaveCall caller)

def print (settings : Settings) (text : String) : Run Unit :=
  modify fun m => if settings.silent then m else { m with output := m.output ++ text }

def passMoment : Run Nat :=
  modifyGet fun m => (m.moment, { m with moment := m.moment + 1 })

/-! ## Names -/

def lookup (name : Token) : Run Value := do
  let m ← get
  match m.env.lookup m.store name.lexeme with
  | some v => return v
  | none => failAt name.line (.undefinedVariable name.lexeme)

def define (name : Token) (v : Value) : Run Unit := do
  let error? ← modifyGet fun m =>
    let (error?, store) := m.store.define m.env.current name.lexeme v
    (error?, { m with store := store })
  match error? with
  | none => return ()
  | some .constantReassignment => failAt name.line (.constantReassignment name.lexeme)
  | some .dynamicConstant => failAt name.line .dynamicConstant

def assign (name : Token) (v : Value) : Run Unit := do
  let error? ← modifyGet fun m =>
    let (error?, store) := m.store.assign m.env.current name.lexeme v
    (error?, { m with store := store })
  match error? with
  | none => return ()
  | some .undefined => failAt name.line (.undefinedVariable name.lexeme)
  | some .constant => failAt name.line (.constantReassignment name.lexeme)

def makeClosure (name : Token) (params : List Token) (body : List Stmt) : Run Value :=
  modifyGet fun m =>
    (.closure ⟨m.store.closures, name.lexeme, params, body, m.env.current⟩,
      { m with store := m.store.addClosure })

/-! ## What the actions do to a machine -/

section Actions

variable (name : Token) (v : Value) (m : Machine)

theorem modifyGet_bind {α β : Type} (f : Machine → α × Machine) (next : α → Run β) :
    (modifyGet f >>= next) m = next (f m).1 (f m).2 :=
  rfl

theorem lookup_apply : lookup name m =
    match m.env.lookup m.store name.lexeme with
    | some v => .ok v m
    | none => .error (.failed ⟨.undefinedVariable name.lexeme, name.line⟩) m := by
  change (match m.env.lookup m.store name.lexeme with
    | some v => (pure v : Run Value)
    | none => failAt name.line (.undefinedVariable name.lexeme)) m = _
  cases m.env.lookup m.store name.lexeme <;> rfl

theorem define_apply : define name v m =
    match m.store.define m.env.current name.lexeme v with
    | (none, st) => .ok () { m with store := st }
    | (some .constantReassignment, st) =>
        .error (.failed ⟨.constantReassignment name.lexeme, name.line⟩) { m with store := st }
    | (some .dynamicConstant, st) =>
        .error (.failed ⟨.dynamicConstant, name.line⟩) { m with store := st } := by
  rw [define, modifyGet_bind]
  rcases m.store.define m.env.current name.lexeme v with ⟨_ | _ | _, st⟩ <;> rfl

theorem assign_apply : assign name v m =
    match m.store.assign m.env.current name.lexeme v with
    | (none, st) => .ok () { m with store := st }
    | (some .undefined, st) =>
        .error (.failed ⟨.undefinedVariable name.lexeme, name.line⟩) { m with store := st }
    | (some .constant, st) =>
        .error (.failed ⟨.constantReassignment name.lexeme, name.line⟩) { m with store := st } := by
  rw [assign, modifyGet_bind]
  rcases m.store.assign m.env.current name.lexeme v with ⟨_ | _ | _, st⟩ <;> rfl

end Actions

end Run

end Scriptlet
