import Mathlib.Data.List.Induction
import Scriptlet.Proofs.Scope.Chain
import Scriptlet.Scope.Environment

/-!
# Frames

The environments of the bodies that are running, one for each call, with the scopes that functions
have captured on the way.  A history is a list of operations on them, carried out from the start on.
-/

namespace Scriptlet

/-- `below` holds the environments of the callers, the nearest first, and `captured` the scopes
that were remembered, the last first. -/
structure Frames where
  store : Store
  top : Environment
  below : List Environment
  captured : List ScopeId

inductive Operation where
  | push
  | pop
  | capture
  /-- A call whose closure was captured so many captures ago. -/
  | enclose (ago : Nat)
  | restore
  | define (name : String) (v : Value)
  | assign (name : String) (v : Value)
  /-- Binds in the global scope, whatever the name. -/
  | seed (name : String) (v : Value)

namespace Frames

def start : Frames where
  store := Store.empty.addRoot
  top := Environment.start 0
  below := []
  captured := []

def enclose (f : Frames) (ago : Nat) : Frames :=
  match f.captured[ago]? with
  | none => f
  | some scope => { f with top := f.top.enclosed scope, below := f.top :: f.below }

def restore (f : Frames) : Frames :=
  match f.below with
  | [] => f
  | caller :: below => { f with top := caller, below := below }

def step (f : Frames) : Operation → Frames
  | .push => { f with top := (f.top.push f.store).1, store := (f.top.push f.store).2 }
  | .pop => { f with top := f.top.leave }
  | .capture => { f with captured := f.top.current :: f.captured }
  | .enclose ago => f.enclose ago
  | .restore => f.restore
  | .define name v => { f with store := (f.store.define f.top.current name v).2 }
  | .assign name v => { f with store := (f.store.assign f.top.current name v).2 }
  | .seed name v => { f with store := f.store.set f.top.globalScope name v }

@[simp] theorem store_enclose (f : Frames) (ago : Nat) : (f.enclose ago).store = f.store := by
  unfold enclose
  split <;> rfl

@[simp] theorem store_restore (f : Frames) : f.restore.store = f.store := by
  unfold restore
  split <;> rfl

def run (f : Frames) (ops : List Operation) : Frames :=
  ops.foldl step f

@[simp] theorem run_nil (f : Frames) : f.run [] = f := rfl

@[simp] theorem run_cons (f : Frames) (op : Operation) (ops : List Operation) :
    f.run (op :: ops) = (f.step op).run ops := rfl

theorem run_append (f : Frames) (ops later : List Operation) :
    f.run (ops ++ later) = (f.run ops).run later :=
  List.foldl_append

/-! ## Scopes that are still in use -/

/-- The scopes that code can still be run in. -/
def reachable (f : Frames) : List ScopeId :=
  f.captured ++ (f.top :: f.below).flatMap fun env => env.globalScope :: env.scopes

theorem current_mem_reachable (f : Frames) : f.top.current ∈ f.reachable := by
  simp [reachable, Environment.scopes]

theorem size_le_step (f : Frames) (op : Operation) : f.store.size ≤ (f.step op).store.size := by
  cases op <;> simp [step, Environment.push]

theorem mem_reachable_step {f : Frames} {op : Operation} {id : ScopeId}
    (h : id ∈ (f.step op).reachable) : id ∈ f.reachable ∨ id < (f.step op).store.size := by
  obtain ⟨store, ⟨current, outer, globalScope⟩, below, captured⟩ := f
  cases op with
  | push =>
      simp only [step, Environment.push, Environment.enter, reachable, Environment.scopes,
        List.flatMap_cons, List.mem_append, List.mem_cons, Store.size_addChild] at h ⊢
      grind
  | pop => cases outer <;> grind [step, Environment.leave, reachable, Environment.scopes]
  | capture => grind [step, reachable, Environment.scopes]
  | enclose ago =>
      simp only [step, enclose] at h ⊢
      cases hcaptured : captured[ago]? with
      | none => exact .inl (by simpa [hcaptured] using h)
      | some scope =>
          have hmem := List.mem_of_getElem? hcaptured
          left
          simp only [hcaptured, reachable, Environment.scopes, Environment.enclosed] at h ⊢
          grind
  | restore =>
      cases below <;> grind [step, restore, reachable]
  | define name v => exact .inl h
  | assign name v => exact .inl h
  | seed name v => exact .inl h

theorem reachable_lt (ops : List Operation) :
    ∀ id ∈ (start.run ops).reachable, id < (start.run ops).store.size := by
  induction ops using List.reverseRecOn with
  | nil => decide
  | append_singleton ops op ih =>
      intro id hid
      rw [run_append] at hid ⊢
      rcases mem_reachable_step hid with h | h
      · exact Nat.lt_of_lt_of_le (ih id h) (size_le_step _ op)
      · exact h

end Frames

end Scriptlet
