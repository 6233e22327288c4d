import Scriptlet.Machine.State
import Scriptlet.Proofs.Scope.Chain

/-!
# Where programs start

A new machine has one scope, the global one, and in it the names that the host binds.
-/

namespace Scriptlet.Machine

variable {globals : List (String × Value)} {id : ScopeId} {name : String} {v : Value}

theorem size_initial : initial.store.size = 1 :=
  rfl

theorem get?_initial (id : ScopeId) (name : String) : initial.store.get? id name = none := by
  cases id <;> rfl

theorem withGlobals_induction {m : Machine} {motive : Store → Prop} (hstart : motive m.store)
    (hset : ∀ b ∈ globals, ∀ st, motive st → motive (st.set m.env.globalScope b.1 b.2)) :
    motive (m.withGlobals globals).store := by
  simp only [withGlobals]
  generalize m.store = st at hstart
  induction globals generalizing st with
  | nil => exact hstart
  | cons b globals ih =>
      rw [List.forall_mem_cons] at hset
      exact ih hset.2 _ (hset.1 st hstart)

theorem size_withGlobals : (initial.withGlobals globals).store.size = 1 := by
  refine withGlobals_induction (motive := fun st => st.size = 1) size_initial ?_
  intro b _ st hst
  rw [Store.size_set, hst]

theorem mem_of_get?_withGlobals (h : (initial.withGlobals globals).store.get? id name = some v) :
    ∃ b ∈ globals, b.2 = v := by
  revert h
  refine withGlobals_induction (motive := fun st => st.get? id name = some v → _) ?_ ?_
  · simp [get?_initial]
  · intro b hb st hst h
    rcases Store.get?_of_get?_set h with h | rfl
    · exact hst h
    · exact ⟨b, hb, rfl⟩

theorem eq_zero_of_get?_withGlobals
    (h : (initial.withGlobals globals).store.get? id name = some v) : id = 0 := by
  refine Nat.eq_zero_of_not_pos fun hpos => ?_
  have hnone : (initial.withGlobals globals).store.scopes[id]? = none :=
    Array.getElem?_eq_none (Nat.le_trans (Nat.le_of_eq size_withGlobals) hpos)
  simp [Store.get?, hnone] at h

end Scriptlet.Machine
