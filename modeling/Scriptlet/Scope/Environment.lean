import Scriptlet.Scope.Store

/-!
Environments: the scopes that a running body has entered.

The innermost scope is the one in which names are bound and looked up.  A call runs in an
environment of its own, which starts at the scope in which the function was defined.
-/

namespace Scriptlet

/-- `outer` lists the scopes entered before the current one, the innermost first. -/
structure Environment where
  current : ScopeId
  outer : List ScopeId
  globalScope : ScopeId
  deriving DecidableEq, Repr, Inhabited

namespace Environment

def start (globalScope : ScopeId) : Environment :=
  ⟨globalScope, [], globalScope⟩

def enclosed (env : Environment) (scope : ScopeId) : Environment :=
  ⟨scope, [], env.globalScope⟩

def scopes (env : Environment) : List ScopeId :=
  env.current :: env.outer

def depth (env : Environment) : Nat :=
  env.scopes.length

def enter (env : Environment) (scope : ScopeId) : Environment :=
  { env with current := scope, outer := env.current :: env.outer }

def leave (env : Environment) : Environment :=
  match env.outer with
  | [] => env
  | scope :: outer => { env with current := scope, outer := outer }

def push (env : Environment) (st : Store) : Environment × Store :=
  (env.enter st.size, st.addChild env.current)

/-- A global name that is bound nowhere has the value `nil`. -/
def lookup (env : Environment) (st : Store) (name : String) : Option Value :=
  match st.lookup env.current name with
  | some v => some v
  | none => if isGlobalName name then some .nil else none

@[simp] theorem leave_enter (env : Environment) (scope : ScopeId) :
    (env.enter scope).leave = env := rfl

end Environment

end Scriptlet
