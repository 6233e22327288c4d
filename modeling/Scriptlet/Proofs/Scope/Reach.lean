import Scriptlet.Proofs.Scope.Chain
import Scriptlet.Proofs.Value.Alike

/-!
# Reachable functions

What a call can get hold of in a store: the scope of the function, its arguments, and whatever can
be read or entered from there.
-/

namespace Scriptlet.Store

/-- The scopes that a call of `f` can come to, over parents and the functions it finds. -/
inductive ReachesScope (st : Store) (f : Closure) (args : List Value) : ScopeId → Prop where
  | own : ReachesScope st f args f.scope
  | argument {v : Value} {g : Closure} (hv : v ∈ args) (hg : v.Holds g) :
      ReachesScope st f args g.scope
  | parent {id p : ScopeId} (h : ReachesScope st f args id) (hp : st.parent? id = some p) :
      ReachesScope st f args p
  | bound {id : ScopeId} {name : String} {v : Value} {g : Closure}
      (h : ReachesScope st f args id) (hv : st.get? id name = some v) (hg : v.Holds g) :
      ReachesScope st f args g.scope

/-- The functions that a call of `f` finds: in its arguments, or bound in scopes it can come to. -/
def Reaches (st : Store) (f : Closure) (args : List Value) (g : Closure) : Prop :=
  (∃ v ∈ args, v.Holds g) ∨
    ∃ id name v, st.ReachesScope f args id ∧ st.get? id name = some v ∧ v.Holds g

variable {st : Store} {f g : Closure} {args : List Value}

theorem Reaches.scope (h : st.Reaches f args g) : st.ReachesScope f args g.scope := by
  obtain ⟨v, hv, hg⟩ | ⟨id, name, v, hid, hv, hg⟩ := h
  · exact .argument hv hg
  · exact .bound hid hv hg

end Scriptlet.Store
